/-
Builds whose artifacts stand already.

Where something is at the location of an output, there is nothing to make for it: its
directory is there, and no file is created where something is. If no file is affected
there is nothing to touch either, so that all a rebuild does is to record its outputs.
-/
import Provenance.Proofs.Update.Table

set_option autoImplicit false

namespace Provenance

open Action Host

/-! ## Calls that find everything there -/

namespace Store

variable {h : Host} {path : Path} {x : Location} {e : Entry}

/-- No directory is made where one is. -/
theorem createDirectories_idle (hfaults : h.faults = []) (hthere : h.disk.hasEntry path = .ok true) :
    (createDirectories path).runOn h = (.ok [], h) := by
  have hnone : (missingDirectories path.names.length path).runOn h = (.ok [], h) := by
    have hrun : (missingDirectories path.names.length (path.descend [])).runOn h
        = (.ok (onward path []), h) :=
      missingDirectories_of_onward (Nat.zero_le _) hthere (by simp [onward])
    rwa [Path.descend_nil] at hrun
  unfold createDirectories
  rw [runOn_bind_ok (runOn_meetFault_nil hfaults _ _), runOn_bind_ok hnone]
  rfl

/-- No file is created where something is. -/
theorem createIfAbsent_idle (hfaults : h.faults = [])
    (hpl : h.disk.place false path = .ok (.present x e)) :
    (createIfAbsent path).runOn h = (.ok false, h) := by
  have hthere : h.disk.createFile path h.clock.now = .error .alreadyThere := by
    rw [Disk.createFile, hpl]
  unfold createIfAbsent
  rw [runOn_bind_ok (runOn_meetFault_nil hfaults _ _), runOn_bind_ok (runOn_get h), hthere]
  rfl

end Store

namespace Update

open Cycle

variable {l : Layout} {ledger : Ledger} {affected : List Text} {c c' : Cycle} {s : SourceSet}
  {sources previous : List Path} {b : Bool} {key : Text} {build : Build} {o : Output} {p : Path}
  {a : ArtifactFile} {x : Location} {e : Entry}

/-! ## No affected files -/

theorem not_among_nil : ¬ s.Among [] p := by
  rintro ⟨f, -, hf⟩
  exact absurd hf List.not_mem_nil

/-- A search for no file that ends has gone through sources of the project. -/
theorem resolves_of_anyAffected_nil (h : anyAffected s [] sources = .ok b) :
    ∀ p ∈ sources, s.resolve? p.text ≠ none := by
  intro p hp hnone
  -- it overlooks nothing, since there is nothing to end it before
  obtain ⟨-, -, -, f, -, -, hf, -⟩ := (overlooked_iff h).mpr ⟨p, hp, hnone⟩
  exact absurd hf List.not_mem_nil

/-- Among sources of the project a search for no file finds none. -/
theorem anyAffected_nil (h : ∀ p ∈ sources, s.resolve? p.text ≠ none) :
    anyAffected s [] sources = .ok false := by
  obtain ⟨b, hb⟩ := anyAffected_of_resolve [] h
  cases b with
  | false => exact hb
  | true =>
    obtain ⟨p, -, hp⟩ := (anyAffected_ok_iff hb).mp rfl
    exact absurd hp not_among_nil

theorem isAffected_nil (h : ∀ p ∈ sources, s.resolve? p.text ≠ none)
    (h' : ∀ p ∈ previous, s.resolve? p.text ≠ none) :
    isAffected s [] sources previous = .ok false := by
  rw [isAffected, anyAffected_nil h]
  exact anyAffected_nil h'

/-- The sources of an output that no file affects are sources of the project. -/
theorem resolves_of_isAffected_nil (h : isAffected s [] sources previous = .ok b) :
    ∀ p ∈ sources, s.resolve? p.text ≠ none := by
  rcases hany : anyAffected s [] sources with er | b'
  · simp [isAffected, hany] at h
  · exact resolves_of_anyAffected_nil hany

/-- After a rebuild for which no file was affected, another one of the same build would find none
either. -/
theorem Noted.isAffected_again (hn : Noted l ledger [] s build c) (ho : o ∈ build) :
    ∃ key, l.keyOf? o = some key
      ∧ isAffected s [] o.sources ((l.tableOf build).sourcesOf key) = .ok false := by
  have hresolves : ∀ o ∈ build, ∀ p ∈ o.sources, s.resolve? p.text ≠ none := by
    intro o ho
    obtain ⟨key, b, -, haff⟩ := hn.keyed o ho
    exact resolves_of_isAffected_nil haff
  obtain ⟨key, b, hkey, -⟩ := hn.keyed o ho
  refine ⟨key, hkey, isAffected_nil (hresolves o ho) fun p hp => ?_⟩
  -- what is recorded now are sources of outputs of the build
  rw [Layout.sourcesOf_tableOf, Layout.sourcesIn] at hp
  obtain ⟨o', ho', hp'⟩ := List.mem_flatMap.mp hp
  exact hresolves o' (List.mem_filter.mp ho').1 p hp'

/-! ## Artifacts that stand -/

/-- Something is at the location of each output. -/
def Layout.Stood (l : Layout) (build : Build) (d : Disk) : Prop :=
  ∀ o ∈ build, ∀ p, Artifact.locate l.outputRoot o.path = .ok p →
    ∃ x e, d.place false p = .ok (.present x e)

/-- An artifact that stands is not made. -/
theorem materialize_idle (hl : l.Sound) (ha : a.location.Below l.outputRoot)
    (hd : c.host.disk.Legal) (hfaults : c.host.faults = [])
    (hpl : c.host.disk.place false a.location = .ok (.present x e)) :
    (materialize a).runOn c = (.ok false, c) := by
  obtain ⟨n, hn, hpar, heq⟩ := ha.cases (hl.output.straight hl.root)
  have hparent : c.host.disk.hasEntry a.location.parent = .ok true := by
    rw [heq] at hpl
    obtain ⟨-, -, dir, e₀, hdir, -⟩ :=
      (Disk.place_child_present_iff hd.tree hpar.isAbsolute hn.2).mp hpl
    exact Disk.hasEntry_true_iff.mpr ⟨dir, e₀, hdir⟩
  have hmake := Store.createDirectories_idle hfaults hparent
  have hcreate := Store.createIfAbsent_idle hfaults hpl
  unfold materialize
  rw [runOn_bind, runOn_onHost, hmake]
  dsimp only
  rw [runOn_bind, runOn_note]
  dsimp only
  rw [runOn_bind, runOn_onHost, hcreate, List.append_nil]
  rfl

/-- An output whose artifact stands, and which no file affects, is recorded and nothing else. -/
theorem rebuildOutput_idle (hl : l.Sound) (hd : c.host.disk.Legal) (hfaults : c.host.faults = [])
    (hlocate : Artifact.locate l.outputRoot o.path = .ok p) (hkey : p.key l.projectRoot = .ok key)
    (haff : isAffected c.sources affected o.sources (ledger.sourcesOf key) = .ok false)
    (hpl : c.host.disk.place false p = .ok (.present x e)) :
    (rebuildOutput l ledger affected o).runOn c = (.ok (),
      { c with pending := { c.pending with entries := c.pending.entries.record key o.sources } }) := by
  have hp : (Action.ofExcept Cause.artifact (Artifact.locate l.outputRoot o.path)).runOn c
      = (.ok p, c) := by
    rw [hlocate]
    rfl
  have ha : (Action.ofExcept id (l.artifact p)).runOn c = (.ok ⟨key, p⟩, c) := by
    rw [Layout.artifact, hkey]
    rfl
  have hmake : (materialize ⟨key, p⟩).runOn c = (.ok false, c) :=
    materialize_idle hl (Artifact.locate_below hlocate) hd hfaults hpl
  have hnone : (Action.ofExcept id (isAffected c.sources affected o.sources
      (ledger.sourcesOf key))).runOn c = (.ok false, c) := by
    rw [haff]
    rfl
  unfold rebuildOutput
  rw [runOn_bind_ok hp, runOn_bind_ok ha, runOn_bind_ok hmake, runOn_bind_ok (runOn_get c)]
  dsimp only
  rw [runOn_bind_ok hnone]
  rfl

/-- A rebuild whose artifacts stand, and which no file affects, leaves the host as it is. -/
theorem rebuildSteps_idle (hl : l.Sound) (hd : c.host.disk.Legal) (hfaults : c.host.faults = [])
    (hkeyed : ∀ o ∈ build, ∃ key, l.keyOf? o = some key
      ∧ isAffected c.sources affected o.sources (ledger.sourcesOf key) = .ok false)
    (hstood : l.Stood build c.host.disk) :
    ∃ entries, (rebuildSteps l ledger affected build).runOn c
      = (.ok (), { c with pending := { c.pending with entries := entries } }) := by
  -- what stays along the outputs is everything but the entries
  have hends := ends_forM (f := rebuildOutput l ledger affected) (s := c)
    (I := fun c' => ∃ entries, c' = { c with pending := { c.pending with entries := entries } })
    (E := fun _ _ _ _ => False) ⟨c.pending.entries, rfl⟩ fun o ho c' hc' => by
      obtain ⟨entries, rfl⟩ := hc'
      obtain ⟨key, hkey, haff⟩ := hkeyed o ho
      obtain ⟨p, hlocate, hkey⟩ := Layout.keyOf?_eq_some_iff.mp hkey
      obtain ⟨x, e, hpl⟩ := hstood o ho p hlocate
      have hrun := rebuildOutput_idle (c := { c with
        pending := { c.pending with entries := entries } }) hl hd hfaults hlocate hkey haff hpl
      rw [hrun]
      exact ⟨_, rfl⟩
  rcases hr : (rebuildSteps l ledger affected build).runOn c with ⟨f | u, c'⟩
  · rw [rebuildSteps] at hr
    rw [hr] at hends
    obtain ⟨_, _, -, -, hno⟩ := hends
    exact hno.elim
  · rw [rebuildSteps] at hr
    rw [hr] at hends
    obtain ⟨entries, rfl⟩ := hends
    exact ⟨entries, rfl⟩

end Update

end Provenance
