/-
What an update records.

Steps record sources and never forget any, so the sources that are named in the
end are those that the steps recorded. A rebuild records every source of its
build, looked at or not: the search for an affected source stops at the first, and
what comes after that is recorded without having been looked at. An edit records
the location of each affected file that produces an artifact, and does not look at
it at all.
-/
import Provenance.Proofs.SourceSet
import Provenance.Proofs.Update.Cycle

set_option autoImplicit false

namespace Provenance

/-! ## Named sources -/

namespace Entries

/-- A source is recorded for some key. -/
def Names (entries : Entries) (p : Path) : Prop := ∃ e ∈ entries, p ∈ e.2

theorem not_names_nil (p : Path) : ¬ Names [] p := by simp [Names]

theorem names_cons (k : Text) (sources : List Path) (entries : Entries) (p : Path) :
    Names ((k, sources) :: entries) p ↔ p ∈ sources ∨ entries.Names p := by
  simp [Names]

/-- Recording sources names these besides the ones named before. -/
theorem names_record (key : Text) (sources : List Path) (entries : Entries) (p : Path) :
    (entries.record key sources).Names p ↔ entries.Names p ∨ p ∈ sources := by
  induction entries with
  | nil => simp [record, names_cons, not_names_nil]
  | cons e entries ih =>
    obtain ⟨k, old⟩ := e
    unfold record
    split
    · simp only [names_cons, List.mem_append]
      rw [or_assoc, or_assoc, or_comm (a := p ∈ sources)]
    · rw [names_cons, names_cons, ih, or_assoc]

end Entries

namespace Update

open Action Cycle Host

variable {l : Layout} {ledger : Ledger} {affected : List Text} {c c' : Cycle}

/-! ## The search for an affected source -/

/-- An affected source comes before one that is none of the project's, so that the search ends
before the latter is looked at. -/
def Overlooked (s : SourceSet) (affected : List Text) (sources : List Path) : Prop :=
  ∃ before q rest f, sources = before ++ q :: rest ∧ s.resolve? q.text = some f
    ∧ f.path ∈ affected ∧ ∃ p ∈ rest, s.resolve? p.text = none

theorem anyAffected_cons (s : SourceSet) (affected : List Text) (q : Path) (rest : List Path) :
    anyAffected s affected (q :: rest)
      = match s.resolve? q.text with
        | none => .error (.untracked q)
        | some f => if affected.contains f.path then .ok true else anyAffected s affected rest :=
  (rfl)

/-- A search that ends without an error has come to a source, which is affected, or goes on. -/
theorem anyAffected_cons_ok {s : SourceSet} {q : Path} {rest : List Path} {b : Bool}
    (h : anyAffected s affected (q :: rest) = .ok b) :
    ∃ f, s.resolve? q.text = some f ∧ ((f.path ∈ affected ∧ b = true)
      ∨ (f.path ∉ affected ∧ anyAffected s affected rest = .ok b)) := by
  rw [anyAffected_cons] at h
  cases hq : s.resolve? q.text with
  | none => simp [hq] at h
  | some f =>
    rw [hq] at h
    dsimp only at h
    split at h
    · rename_i hf
      exact ⟨f, rfl, .inl ⟨by simpa using hf, (Except.ok.inj h).symm⟩⟩
    · rename_i hf
      exact ⟨f, rfl, .inr ⟨by simpa using hf, h⟩⟩

/-- A search that ends without an error overlooks whatever is no source of the project. -/
theorem overlooked_iff {s : SourceSet} {sources : List Path} {b : Bool}
    (h : anyAffected s affected sources = .ok b) :
    Overlooked s affected sources ↔ ∃ p ∈ sources, s.resolve? p.text = none := by
  constructor
  · rintro ⟨before, q, rest, f, rfl, -, -, p, hp, hnone⟩
    exact ⟨p, by simp [hp], hnone⟩
  induction sources with
  | nil => simp
  | cons q rest ih =>
    rintro ⟨p, hp, hnone⟩
    obtain ⟨f, hq, hcases⟩ := anyAffected_cons_ok h
    have hrest : p ∈ rest := by
      rcases List.mem_cons.mp hp with rfl | hp
      · simp [hq] at hnone
      · exact hp
    rcases hcases with ⟨hf, -⟩ | ⟨-, h⟩
    · exact ⟨[], q, rest, f, rfl, hq, hf, p, hrest, hnone⟩
    · obtain ⟨before, q', rest', f', rfl, hq', hf', hp'⟩ := ih h ⟨p, hrest, hnone⟩
      exact ⟨q :: before, q', rest', f', rfl, hq', hf', hp'⟩

/-- A search through sources of the project ends without an error. -/
theorem anyAffected_of_resolve {s : SourceSet} (affected : List Text) {sources : List Path}
    (h : ∀ p ∈ sources, s.resolve? p.text ≠ none) : ∃ b, anyAffected s affected sources = .ok b := by
  induction sources with
  | nil => exact ⟨false, rfl⟩
  | cons q rest ih =>
    rw [anyAffected_cons]
    cases hq : s.resolve? q.text with
    | none => exact absurd hq (h q (List.mem_cons_self ..))
    | some f =>
      dsimp only
      split
      · exact ⟨true, rfl⟩
      · exact ih fun p hp => h p (List.mem_cons_of_mem _ hp)

/-! ## What stays within a step -/

/-- The two states have the same sources and the same entries. -/
def SamePlan (c c' : Cycle) : Prop :=
  c'.sources = c.sources ∧ c'.pending.entries = c.pending.entries

theorem stepwise_samePlan : Stepwise SamePlan :=
  ⟨fun _ => ⟨rfl, rfl⟩, fun h h' => ⟨h'.1.trans h.1, h'.2.trans h.2⟩⟩

theorem samePlan_materialize (a : ArtifactFile) : Respects SamePlan (materialize a) := by
  have hR := stepwise_samePlan
  refine respects_bind hR (fun _ => ⟨rfl, rfl⟩) fun dirs => ?_
  refine respects_bind hR (fun _ => ⟨rfl, rfl⟩) fun _ => ?_
  refine respects_bind hR (fun _ => ⟨rfl, rfl⟩) fun created => ?_
  cases created
  · exact respects_pure hR _
  · exact respects_bind hR (fun _ => ⟨rfl, rfl⟩) fun _ => respects_pure hR _

theorem samePlan_touch (a : ArtifactFile) : Respects SamePlan (Cycle.touch a) :=
  respects_bind stepwise_samePlan (fun _ => ⟨rfl, rfl⟩) fun _ => fun _ => ⟨rfl, rfl⟩

theorem blames_materialize (a : ArtifactFile) : Blames IsCall (materialize a) := by
  apply blames_bind (blames_within (Store.blames_createDirectories _))
  intro dirs
  refine blames_bind (blames_modify _) fun _ => ?_
  apply blames_bind (blames_within (Store.blames_createIfAbsent _))
  intro created
  cases created
  · exact blames_pure _
  · exact blames_bind (blames_modify _) fun _ => blames_pure _

theorem blames_touchArtifact (a : ArtifactFile) : Blames IsCall (Cycle.touch a) :=
  blames_bind (blames_within (Store.blames_touch _)) fun _ => blames_modify _

/-- The two states have sources of one project, with one set of rules. -/
def SameRules (c c' : Cycle) : Prop := SourceSet.SameRules c.sources c'.sources

theorem stepwise_sameRules : Stepwise SameRules :=
  ⟨fun c => SourceSet.stepwise_sameRules.refl c.sources,
    fun h h' => SourceSet.stepwise_sameRules.trans h h'⟩

theorem SamePlan.sameRules (h : SamePlan c c') : SameRules c c' := by
  rw [SameRules, h.1]
  exact SourceSet.stepwise_sameRules.refl c.sources

theorem sameRules_materialize (a : ArtifactFile) : Respects SameRules (materialize a) :=
  fun c => (samePlan_materialize a c).sameRules

theorem sameRules_touch (a : ArtifactFile) : Respects SameRules (Cycle.touch a) :=
  fun c => (samePlan_touch a c).sameRules

theorem sameRules_record (a : ArtifactFile) (sources : List Path) :
    Respects SameRules (Cycle.record a sources) := fun _ => ⟨rfl, rfl⟩

theorem sameRules_rebuildSteps (build : Build) :
    Respects SameRules (rebuildSteps l ledger affected build) := by
  have hR := stepwise_sameRules
  apply respects_forM hR build
  intro o _
  apply respects_bind hR (respects_ofExcept hR _ _)
  intro location
  apply respects_bind hR (respects_ofExcept hR _ _)
  intro a
  apply respects_bind hR (sameRules_materialize a)
  intro _
  apply respects_bind hR (respects_get hR)
  intro _
  apply respects_bind hR (respects_ofExcept hR _ _)
  intro b
  cases b
  · exact sameRules_record a _
  · exact respects_bind hR (sameRules_touch a) fun _ => sameRules_record a _

theorem sameRules_editSteps (resolve : Resolver) :
    Respects SameRules (editSteps l resolve affected) := by
  have hR := stepwise_sameRules
  refine respects_bind hR (fun c => SourceSet.respects_listed c.host.disk c.sources) fun files => ?_
  apply respects_forM hR _
  intro f _
  refine respects_bind hR ?_ fun ps => respects_forM hR ps fun p _ => ?_
  · refine respects_bind hR (fun c => SourceSet.respects_unitOf c.host.disk f c.sources) fun unit => ?_
    cases unit
    · exact respects_pure hR _
    · exact respects_ofExcept hR _ _
  · apply respects_bind hR (respects_ofExcept hR _ _)
    intro a
    apply respects_bind hR (sameRules_materialize a)
    intro created
    cases created
    · exact respects_bind hR (sameRules_touch a) fun _ => sameRules_record a _
    · exact sameRules_record a _

/-! ## Rebuilds -/

/-- An output that is brought in has been looked at as far as needed, and its sources are
recorded. -/
theorem rebuildOutput_ok {o : Output} {u : Unit}
    (h : (rebuildOutput l ledger affected o).runOn c = (.ok u, c')) :
    ∃ key b, isAffected c.sources affected o.sources (ledger.sourcesOf key) = .ok b
      ∧ c'.sources = c.sources
      ∧ c'.pending.entries = c.pending.entries.record key o.sources := by
  obtain ⟨a, created, c₁, b, c₂, -, -, hm, haff, ht, hrecord⟩ := rebuildOutput_steps h
  have hplan := (samePlan_materialize a).of_run hm
  have htouch : SamePlan c₁ c₂ := by
    cases b with
    | false => exact (Prod.mk.inj ht).2 ▸ stepwise_samePlan.refl c₁
    | true =>
      have htouch := samePlan_touch a c₁
      rwa [show (Cycle.touch a).runOn c₁ = _ from ht] at htouch
  obtain rfl : { c₂ with pending := _ } = c' := (Prod.mk.inj hrecord).2
  have hboth := stepwise_samePlan.trans hplan htouch
  exact ⟨a.key, b, haff, hboth.1, congrArg (·.record a.key o.sources) hboth.2⟩

/-- A rebuild that gets through names all sources of its build, and has found no fault with those
that it looked at. -/
theorem rebuildSteps_ok {build : Build} {u : Unit}
    (h : (rebuildSteps l ledger affected build).runOn c = (.ok u, c')) :
    (∀ o ∈ build, ∃ b, anyAffected c.sources affected o.sources = .ok b)
      ∧ ∀ p, c'.pending.entries.Names p
          ↔ c.pending.entries.Names p ∨ ∃ o ∈ build, p ∈ o.sources := by
  induction build generalizing c with
  | nil =>
    obtain rfl : c = c' := (Prod.mk.inj h).2
    simp
  | cons o build ih =>
    obtain ⟨_, c₁, ho, hrest⟩ := bind_ok_iff.mp (show (rebuildOutput l ledger affected o >>=
      fun _ => rebuildSteps l ledger affected build).runOn c = (.ok u, c') from h)
    obtain ⟨key, b, haff, hsources, hentries⟩ := rebuildOutput_ok ho
    obtain ⟨hlooked, hnames⟩ := ih hrest
    refine ⟨fun o' ho' => ?_, fun p => ?_⟩
    · rcases List.mem_cons.mp ho' with rfl | ho'
      · unfold isAffected at haff
        rcases hany : anyAffected c.sources affected o'.sources with e | b'
        · simp [hany] at haff
        · exact ⟨b', rfl⟩
      · rw [← hsources]
        exact hlooked o' ho'
    · rw [hnames, hentries, Entries.names_record]
      simp only [List.mem_cons, exists_eq_or_imp]
      rw [or_assoc]

theorem Entries.names_of_sourcesOf {entries : Entries} {key : Text} {p : Path}
    (h : p ∈ entries.sourcesOf key) : entries.Names p := by
  induction entries with
  | nil => simp [Entries.sourcesOf] at h
  | cons e entries ih =>
    obtain ⟨k, sources⟩ := e
    unfold Entries.sourcesOf at h
    rw [Entries.names_cons]
    split at h
    · exact .inl h
    · exact .inr (ih h)

/-- A failure for some other reason than a location that is no source of the project. -/
def NotUntracked (f : Failure) : Prop := ∀ p, f.cause ≠ .untracked p

theorem notUntracked_of_isCall {f : Failure} (h : IsCall f) : NotUntracked f := by
  intro p hp
  obtain ⟨-, ⟨e, he⟩ | ⟨message, he⟩⟩ := h.cases
  · simp [he] at hp
  · simp [he] at hp

theorem notUntracked_of_isLook {d : Disk} {f : Failure} (h : SourceSet.IsLook d f) : NotUntracked f := by
  obtain ⟨cause, notes⟩ := f
  rintro p rfl
  cases notes <;> exact h

/-- An output whose sources are sources of the project, in the build and in the ledger, does not
fail for them. -/
theorem ends_rebuildOutput {o : Output} (hown : ∀ p ∈ o.sources, c.sources.resolve? p.text ≠ none)
    (hold : ∀ p, ledger.entries.Names p → c.sources.resolve? p.text ≠ none) :
    Ends ((rebuildOutput l ledger affected o).runOn c) (fun _ c' => c'.sources = c.sources)
      (fun f _ => NotUntracked f) := by
  refine ends_ofExcept_bind (fun e _ p => ?_) fun location _ => ?_
  · rintro ⟨⟩
  refine ends_ofExcept_bind (fun e he p => ?_) fun a _ => ?_
  · rintro rfl
    unfold Layout.artifact at he
    split at he <;> simp at he
  refine ends_bind (M := fun _ c' => c'.sources = c.sources) ?_ fun created c₁ h₁ => ?_
  · exact (ends_of_blames (samePlan_materialize a) (blames_materialize a) c).imp
      (fun _ _ h => h.1) fun _ _ => notUntracked_of_isCall
  refine ends_get_bind (ends_ofExcept_bind (fun e he => ?_) fun b _ => ?_)
  · rw [h₁, isAffected] at he
    obtain ⟨b, hb⟩ := anyAffected_of_resolve affected hown
    have hkept : ∀ p ∈ ledger.sourcesOf a.key, c.sources.resolve? p.text ≠ none :=
      fun p hp => hold p (Entries.names_of_sourcesOf hp)
    obtain ⟨b', hb'⟩ := anyAffected_of_resolve affected hkept
    rw [hb, hb'] at he
    cases b <;> simp at he
  cases b with
  | false => exact h₁
  | true =>
    refine ends_bind (M := fun _ c' => c'.sources = c.sources) ?_ fun _ c₂ h₂ => ?_
    · exact (ends_of_blames (samePlan_touch a) (blames_touchArtifact a) c₁).imp
        (fun _ _ h => h.1.trans h₁) fun _ _ => notUntracked_of_isCall
    · exact h₂

/-- A rebuild whose sources, and all those that the ledger names, are sources of the project does not
fail for one of them. -/
theorem ends_rebuildSteps {build : Build}
    (hown : ∀ o ∈ build, ∀ p ∈ o.sources, c.sources.resolve? p.text ≠ none)
    (hold : ∀ p, ledger.entries.Names p → c.sources.resolve? p.text ≠ none) :
    Ends ((rebuildSteps l ledger affected build).runOn c) (fun _ c' => c'.sources = c.sources)
      (fun f _ => NotUntracked f) := by
  have hstep : ∀ o ∈ build, ∀ c₁ : Cycle, c₁.sources = c.sources →
      Ends ((rebuildOutput l ledger affected o).runOn c₁) (fun _ c' => c'.sources = c.sources)
        (fun f _ => NotUntracked f) := by
    intro o ho c₁ h₁
    rw [← h₁] at hown hold ⊢
    exact ends_rebuildOutput (hown o ho) hold
  refine (ends_forM (I := fun c₁ => c₁.sources = c.sources)
    (E := fun _ _ f _ => NotUntracked f) rfl hstep).imp (fun _ _ h => h) ?_
  rintro f _ ⟨_, _, -, -, h⟩
  exact h

/-! ## Edits -/

/-- An artifact that is brought in by an edit is recorded with the file that produces it. -/
theorem editArtifact_ok {f : TrackedFile} {p : Path} {u : Unit}
    (h : (editArtifact l f p).runOn c = (.ok u, c')) :
    c'.sources = c.sources
      ∧ ∃ key, c'.pending.entries = c.pending.entries.record key [f.location] := by
  obtain ⟨a, created, c₁, c₂, -, -, hm, ht, hrecord⟩ := editArtifact_steps h
  have hplan := (samePlan_materialize a).of_run hm
  have htouch : SamePlan c₁ c₂ := by
    cases created with
    | true => exact (Prod.mk.inj ht).2 ▸ stepwise_samePlan.refl c₁
    | false =>
      have htouch := samePlan_touch a c₁
      rwa [show (Cycle.touch a).runOn c₁ = _ from ht] at htouch
  obtain rfl : { c₂ with pending := _ } = c' := (Prod.mk.inj hrecord).2
  have hboth := stepwise_samePlan.trans hplan htouch
  exact ⟨hboth.1, a.key, congrArg (·.record a.key [f.location]) hboth.2⟩

/-- The artifacts of a file name its location, if there are any. -/
theorem editArtifacts_ok {f : TrackedFile} {ps : List Path} {u : Unit}
    (h : (ps.forM (editArtifact l f)).runOn c = (.ok u, c')) (p : Path) :
    c'.pending.entries.Names p
      ↔ c.pending.entries.Names p ∨ (ps ≠ [] ∧ p = f.location) := by
  induction ps generalizing c with
  | nil =>
    obtain rfl : c = c' := (Prod.mk.inj h).2
    simp
  | cons q ps ih =>
    obtain ⟨_, c₁, hq, hrest⟩ := bind_ok_iff.mp (show (editArtifact l f q >>=
      fun _ => ps.forM (editArtifact l f)).runOn c = (.ok u, c') from h)
    obtain ⟨-, key, hentries⟩ := editArtifact_ok hq
    rw [ih hrest, hentries, Entries.names_record]
    simp only [List.mem_singleton, ne_eq, reduceCtorEq, not_false_eq_true, true_and]
    constructor
    · rintro ((hn | hp) | ⟨-, hp⟩)
      · exact .inl hn
      · exact .inr hp
      · exact .inr hp
    · rintro (hn | hp)
      · exact .inl (.inl hn)
      · exact .inl (.inr hp)

/-- An edit comes to a file that produces an artifact at least. -/
def Produces (l : Layout) (resolve : Resolver) (files : List TrackedFile) (c : Cycle)
    (f : TrackedFile) : Prop :=
  ∃ c₁ location rest c₂, ComesTo (editSource l resolve) files c f c₁
    ∧ (artifactLocations l resolve f).runOn c₁ = (.ok (location :: rest), c₂)

theorem entries_artifactLocations {resolve : Resolver} {f : TrackedFile} {ps : List Path}
    (h : (artifactLocations l resolve f).runOn c = (.ok ps, c')) :
    c'.pending.entries = c.pending.entries := by
  obtain ⟨unit, c₁, hu, hrest⟩ := bind_ok_iff.mp h
  have hsame : c₁.pending.entries = c.pending.entries := by
    rw [runOn_onSources] at hu
    rw [← (Prod.mk.inj hu).2]
  cases unit with
  | none =>
    obtain rfl : c₁ = c' := (Prod.mk.inj hrest).2
    exact hsame
  | some unit =>
    obtain ⟨-, rfl⟩ := ofExcept_ok_iff.mp hrest
    exact hsame

/-- An edit that gets through names the files that produce artifacts. -/
theorem editSources_ok {resolve : Resolver} {files : List TrackedFile} {u : Unit}
    (h : (files.forM (editSource l resolve)).runOn c = (.ok u, c')) (p : Path) :
    c'.pending.entries.Names p
      ↔ c.pending.entries.Names p
        ∨ ∃ f, Produces l resolve files c f ∧ p = f.location := by
  induction files generalizing c with
  | nil =>
    obtain rfl : c = c' := (Prod.mk.inj h).2
    refine ⟨.inl, ?_⟩
    rintro (hn | ⟨f, ⟨_, _, _, _, ⟨before, after, hnil, -⟩, -⟩, -⟩)
    · exact hn
    · simp at hnil
  | cons f files ih =>
    obtain ⟨_, c₁, hf, hrest⟩ := bind_ok_iff.mp (show (editSource l resolve f >>=
      fun _ => files.forM (editSource l resolve)).runOn c = (.ok u, c') from h)
    obtain ⟨ps, c₂, hps, hforM⟩ := bind_ok_iff.mp (show (artifactLocations l resolve f >>=
      fun ps => ps.forM (editArtifact l f)).runOn c = (.ok _, c₁) from hf)
    rw [ih hrest, editArtifacts_ok hforM, entries_artifactLocations hps]
    constructor
    · rintro ((hn | ⟨hne, rfl⟩) | ⟨g, ⟨c₃, q, qs, c₄, hcomes, hlocs⟩, rfl⟩)
      · exact .inl hn
      · cases ps with
        | nil => exact absurd rfl hne
        | cons q qs => exact .inr ⟨f, ⟨c, q, qs, c₂, comesTo_head .., hps⟩, rfl⟩
      · exact .inr ⟨g, ⟨c₃, q, qs, c₄, comesTo_tail hf hcomes, hlocs⟩, rfl⟩
    · rintro (hn | ⟨g, ⟨c₃, q, qs, c₄, hcomes, hlocs⟩, rfl⟩)
      · exact .inl (.inl hn)
      · rcases comesTo_cons_iff.mp hcomes with ⟨rfl, rfl⟩ | ⟨c₅, hf', hcomes⟩
        · rw [hps] at hlocs
          obtain ⟨rfl, -⟩ : ps = q :: qs ∧ c₂ = c₄ := by simpa using hlocs
          exact .inl (.inr ⟨by simp, rfl⟩)
        · obtain rfl : c₁ = c₅ := by
            rw [hf] at hf'
            exact (Prod.mk.inj hf').2
          exact .inr ⟨g, ⟨c₃, q, qs, c₄, hcomes, hlocs⟩, rfl⟩

end Update

end Provenance
