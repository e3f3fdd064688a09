/-
What a build is recorded as.

Outputs that come to one location have one key, however their paths are spelled. A
rebuild records for each key the sources of all outputs that have it, in the order of
the build, and touches it if one of these sources is affected, or one of those that
the ledger had before. None of this depends on the disk: it holds of every rebuild
that gets through its steps.
-/
import Provenance.Proofs.Update.Presence

set_option autoImplicit false

namespace Provenance

/-! ## Entries -/

namespace Entries

variable {entries : Entries} {key : Text} {sources : List Path}

theorem mem_keys (h : (key, sources) ∈ entries) : key ∈ entries.keys := List.mem_map_of_mem h

/-- The entry of a recorded key is the one with its sources. -/
theorem mem_iff (hnodup : entries.keys.Nodup) (hkey : key ∈ entries.keys) :
    (key, sources) ∈ entries ↔ sources = entries.sourcesOf key := by
  induction entries with
  | nil => simp [Entries.keys] at hkey
  | cons e entries ih =>
    obtain ⟨k, others⟩ := e
    obtain ⟨hk, hnodup⟩ := List.nodup_cons.mp hnodup
    rw [List.mem_cons, sourcesOf]
    by_cases heq : k = key
    · subst heq
      have hnot : (k, sources) ∉ entries := fun hmem => hk (mem_keys hmem)
      simp [hnot]
    · have hkey : key ∈ Entries.keys entries := by
        rcases List.mem_cons.mp hkey with h | h
        · exact absurd h.symm heq
        · exact h
      simp [heq, Ne.symm heq, ih hnodup hkey]

end Entries

/-! ## Affected sources -/

/-- A location is that of a source with one of some keys. -/
def SourceSet.Among (s : SourceSet) (keys : List Text) (p : Path) : Prop :=
  ∃ f, s.resolve? p.text = some f ∧ f.path ∈ keys

/-- The sources of all outputs of a build that name a location, in order. -/
def Build.sourcesAt (build : Build) (outputRoot p : Path) : List Path :=
  (build.filter fun out => Artifact.locate outputRoot out.path = .ok p).flatMap Output.sources

namespace Update

open Action Cycle Host

variable {l : Layout} {ledger : Ledger} {affected : List Text} {c c' : Cycle} {s : SourceSet}
  {sources previous : List Path} {b : Bool} {key : Text} {build : Build} {o : Output}

theorem anyAffected_ok_iff (h : anyAffected s affected sources = .ok b) :
    b = true ↔ ∃ p ∈ sources, s.Among affected p := by
  induction sources with
  | nil =>
    obtain rfl : false = b := Except.ok.inj h
    simp
  | cons q rest ih =>
    obtain ⟨f, hq, hcases⟩ := anyAffected_cons_ok h
    have hhead : s.Among affected q ↔ f.path ∈ affected := by simp [SourceSet.Among, hq]
    rcases hcases with ⟨hf, rfl⟩ | ⟨hf, h⟩
    · exact iff_of_true rfl ⟨q, List.mem_cons_self .., hhead.mpr hf⟩
    · simp [ih h, mt hhead.mp hf]

/-- An artifact is affected exactly if one of its sources is, or one of those it had before. -/
theorem isAffected_ok_iff (h : isAffected s affected sources previous = .ok b) :
    b = true ↔ ∃ p, (p ∈ sources ∨ p ∈ previous) ∧ s.Among affected p := by
  unfold isAffected at h
  rcases hany : anyAffected s affected sources with e | b'
  · simp [hany] at h
  have hown := anyAffected_ok_iff hany
  rw [hany] at h
  cases b' with
  | true =>
    obtain rfl : true = b := Except.ok.inj h
    obtain ⟨p, hp, hamong⟩ := hown.mp rfl
    exact iff_of_true rfl ⟨p, .inl hp, hamong⟩
  | false =>
    have hnone : ¬ ∃ p ∈ sources, s.Among affected p := fun hex => by simpa using hown.mpr hex
    rw [anyAffected_ok_iff h]
    constructor
    · rintro ⟨p, hp, hamong⟩
      exact ⟨p, .inr hp, hamong⟩
    · rintro ⟨p, hp | hp, hamong⟩
      · exact absurd ⟨p, hp, hamong⟩ hnone
      · exact ⟨p, hp, hamong⟩

/-! ## Keys of outputs -/

/-- The key of the artifact that an output names. -/
def Layout.keyOf? (l : Layout) (o : Output) : Option Text :=
  match Artifact.locate l.outputRoot o.path with
  | .ok p => (p.key l.projectRoot).toOption
  | .error _ => none

/-- The keys of the outputs of a build, in order. -/
def Layout.keysIn (l : Layout) (build : Build) : List Text := build.filterMap l.keyOf?

/-- The sources of all outputs of a build that have a key, in order. -/
def Layout.sourcesIn (l : Layout) (build : Build) (key : Text) : List Path :=
  (build.filter fun o => l.keyOf? o = some key).flatMap Output.sources

/-- The entries that a build is recorded as. -/
def Layout.tableOf (l : Layout) (build : Build) : Entries :=
  build.foldl (fun entries o => match l.keyOf? o with
    | some key => entries.record key o.sources
    | none => entries) []

/-- The key of an output is that of the location that its path names. -/
theorem Layout.keyOf?_eq_some_iff : l.keyOf? o = some key
    ↔ ∃ p, Artifact.locate l.outputRoot o.path = .ok p ∧ p.key l.projectRoot = .ok key := by
  unfold keyOf?
  rcases Artifact.locate l.outputRoot o.path with e | p
  · simp
  · rcases hkey : p.key l.projectRoot with e | key' <;> simp [hkey, Except.toOption]

theorem Layout.mem_keysIn : key ∈ l.keysIn build ↔ ∃ o ∈ build, l.keyOf? o = some key :=
  List.mem_filterMap

theorem Layout.keysIn_concat (build : Build) (h : l.keyOf? o = some key) :
    l.keysIn (build ++ [o]) = l.keysIn build ++ [key] := by
  simp [keysIn, h]

theorem Layout.tableOf_concat (build : Build) (h : l.keyOf? o = some key) :
    l.tableOf (build ++ [o]) = (l.tableOf build).record key o.sources := by
  simp [tableOf, h]

/-- An output with a refused path is recorded nowhere. -/
theorem Layout.concat_of_none (build : Build) (h : l.keyOf? o = none) :
    l.keysIn (build ++ [o]) = l.keysIn build ∧ l.tableOf (build ++ [o]) = l.tableOf build
      ∧ ∀ key, l.sourcesIn (build ++ [o]) key = l.sourcesIn build key := by
  simp [keysIn, tableOf, sourcesIn, h]

theorem Layout.sourcesIn_concat (build : Build) (h : l.keyOf? o = some key) (k : Text) :
    l.sourcesIn (build ++ [o]) k
      = if k = key then l.sourcesIn build key ++ o.sources else l.sourcesIn build k := by
  rw [sourcesIn, List.filter_append, List.flatMap_append]
  by_cases hk : k = key
  · simp [sourcesIn, h, hk]
  · simp [sourcesIn, h, hk, Ne.symm hk]

/-- The keys recorded are those of the outputs, each once, in the order in which they first come. -/
theorem Layout.keys_tableOf (l : Layout) (build : Build) :
    (l.tableOf build).keys = distinct (l.keysIn build) := by
  induction build using List.reverseRecOn with
  | nil => rfl
  | append_singleton build o ih =>
    cases ho : l.keyOf? o with
    | none =>
      obtain ⟨hkeys, htable, -⟩ := concat_of_none build ho
      rw [hkeys, htable, ih]
    | some key =>
      rw [tableOf_concat build ho, keysIn_concat build ho, Entries.keys_record, ih, distinct_concat]
      by_cases hmem : key ∈ distinct (l.keysIn build) <;> simp [hmem]

/-- The sources recorded for a key are those of all outputs that have it. -/
theorem Layout.sourcesOf_tableOf (l : Layout) (build : Build) (k : Text) :
    (l.tableOf build).sourcesOf k = l.sourcesIn build k := by
  induction build using List.reverseRecOn generalizing k with
  | nil => rfl
  | append_singleton build o ih =>
    cases ho : l.keyOf? o with
    | none =>
      obtain ⟨-, htable, hsources⟩ := concat_of_none build ho
      rw [hsources, htable, ih]
    | some key =>
      rw [tableOf_concat build ho, sourcesIn_concat build ho, Entries.sourcesOf_record, ih, ih]

/-! ## Outputs of one artifact -/

variable {p : Path} {k : Text}

/-- The outputs with the key of an artifact are those that name the artifact. -/
theorem Layout.keyOf?_eq_some_iff_locate (hl : l.outputRoot.Below l.projectRoot)
    (hp : p.Below l.outputRoot) (hkey : p.key l.projectRoot = .ok k) :
    l.keyOf? o = some k ↔ Artifact.locate l.outputRoot o.path = .ok p := by
  rw [keyOf?_eq_some_iff]
  constructor
  · rintro ⟨q, hlocate, hq⟩
    have hsame : q = p :=
      ((Artifact.locate_below hlocate).trans hl).eq_of_key (hp.trans hl) (hq.trans hkey.symm)
    exact hsame ▸ hlocate
  · exact fun hlocate => ⟨p, hlocate, hkey⟩

theorem Layout.sourcesIn_eq (hl : l.outputRoot.Below l.projectRoot) (hp : p.Below l.outputRoot)
    (hkey : p.key l.projectRoot = .ok k) : l.sourcesIn build k = build.sourcesAt l.outputRoot p := by
  rw [sourcesIn, Build.sourcesAt]
  simp only [keyOf?_eq_some_iff_locate hl hp hkey]

/-- What is recorded for an artifact that an output names is one entry, with the sources of all outputs
that name it. -/
theorem Layout.mem_tableOf_iff (hl : l.outputRoot.Below l.projectRoot) (ho : o ∈ build)
    (hlocate : Artifact.locate l.outputRoot o.path = .ok p) (hkey : p.key l.projectRoot = .ok k) :
    (k, sources) ∈ l.tableOf build ↔ sources = build.sourcesAt l.outputRoot p := by
  have hp := Artifact.locate_below hlocate
  have hmem : k ∈ (l.tableOf build).keys := by
    rw [keys_tableOf, mem_distinct, mem_keysIn]
    exact ⟨o, ho, (keyOf?_eq_some_iff_locate hl hp hkey).mpr hlocate⟩
  have hnodup : (l.tableOf build).keys.Nodup := by
    rw [keys_tableOf]
    exact nodup_distinct _
  rw [Entries.mem_iff hnodup hmem, sourcesOf_tableOf, sourcesIn_eq hl hp hkey]

/-! ## What the steps of a rebuild note -/

/-- An output that has been brought in has a key, is recorded, and is touched if it is affected. -/
theorem rebuildOutput_notes {u : Unit}
    (hr : (rebuildOutput l ledger affected o).runOn c = (.ok u, c')) :
    ∃ key b, l.keyOf? o = some key
      ∧ isAffected c.sources affected o.sources (ledger.sourcesOf key) = .ok b
      ∧ c'.sources = c.sources
      ∧ c'.pending.entries = c.pending.entries.record key o.sources
      ∧ ∀ k, k ∈ c'.pending.touched ↔ k ∈ c.pending.touched ∨ (b = true ∧ k = key) := by
  obtain ⟨a, created, c₁, b, c₂, hlocate, hkey, hm, haff, ht, hrecord⟩ := rebuildOutput_steps hr
  obtain ⟨hsources, hentries, htouched, -⟩ := noted_materialize hm
  obtain rfl : _ = c' := (Prod.mk.inj hrecord).2
  refine ⟨a.key, b, Layout.keyOf?_eq_some_iff.mpr ⟨_, hlocate, hkey⟩, haff, ?_⟩
  show c₂.sources = c.sources
    ∧ c₂.pending.entries.record a.key o.sources = c.pending.entries.record a.key o.sources
    ∧ ∀ k, k ∈ c₂.pending.touched ↔ k ∈ c.pending.touched ∨ (b = true ∧ k = a.key)
  rw [← hsources, ← hentries, ← htouched]
  cases b with
  | false =>
    obtain rfl : c₁ = c₂ := (Prod.mk.inj ht).2
    exact ⟨rfl, rfl, by simp⟩
  | true =>
    obtain ⟨hsources', hentries', -, htouched'⟩ := noted_touch ht
    exact ⟨hsources', by rw [hentries'], by simpa using htouched'⟩

/-- What is noted when the outputs before some point of a build have been brought in. -/
structure Noted (l : Layout) (ledger : Ledger) (affected : List Text) (s : SourceSet) (done : Build)
    (c : Cycle) : Prop where
  sources : c.sources = s
  entries : c.pending.entries = l.tableOf done
  keyed : ∀ o ∈ done, ∃ key b, l.keyOf? o = some key
    ∧ isAffected s affected o.sources (ledger.sourcesOf key) = .ok b
  touched : ∀ k, k ∈ c.pending.touched ↔ ∃ o ∈ done, l.keyOf? o = some k
    ∧ isAffected s affected o.sources (ledger.sourcesOf k) = .ok true

theorem Noted.rebuildOutput {done : Build} (h : Noted l ledger affected s done c) {u : Unit}
    (hr : (rebuildOutput l ledger affected o).runOn c = (.ok u, c')) :
    Noted l ledger affected s (done ++ [o]) c' := by
  obtain ⟨key, b, hkey, haff, hsources, hentries, htouched⟩ := rebuildOutput_notes hr
  rw [h.sources] at haff hsources
  refine ⟨hsources, by rw [hentries, h.entries, Layout.tableOf_concat done hkey], fun o' ho' => ?_,
    fun k => ?_⟩
  · rcases List.mem_append.mp ho' with ho' | ho'
    · exact h.keyed o' ho'
    · obtain rfl := List.mem_singleton.mp ho'
      exact ⟨key, b, hkey, haff⟩
  · rw [htouched, h.touched]
    simp only [List.mem_append, List.mem_singleton, or_and_right, exists_or, exists_eq_left, hkey,
      Option.some.injEq]
    refine or_congr Iff.rfl ⟨?_, ?_⟩
    · rintro ⟨rfl, rfl⟩
      exact ⟨rfl, haff⟩
    · rintro ⟨rfl, hyes⟩
      exact ⟨Except.ok.inj (haff.symm.trans hyes), rfl⟩

/-- A key is touched exactly if it is that of an output and a source is affected that some output
with this key names, or that the ledger had for it. -/
theorem Noted.mem_touched_iff (h : Noted l ledger affected s build c) (k : Text) :
    k ∈ c.pending.touched ↔ k ∈ l.keysIn build
      ∧ ∃ p, (p ∈ l.sourcesIn build k ∨ p ∈ ledger.sourcesOf k) ∧ s.Among affected p := by
  have hsource : ∀ p, p ∈ l.sourcesIn build k ↔ ∃ o ∈ build, l.keyOf? o = some k ∧ p ∈ o.sources :=
    fun p => by simp [Layout.sourcesIn, and_assoc]
  rw [h.touched, Layout.mem_keysIn]
  constructor
  · rintro ⟨o, ho, hkey, hyes⟩
    obtain ⟨p, hp, hamong⟩ := (isAffected_ok_iff hyes).mp rfl
    exact ⟨⟨o, ho, hkey⟩, p, hp.imp_left fun hp => (hsource p).mpr ⟨o, ho, hkey, hp⟩, hamong⟩
  · -- a source that only the ledger has is found by way of any output with the key
    have hfound : ∀ o ∈ build, l.keyOf? o = some k → ∀ p,
        p ∈ o.sources ∨ p ∈ ledger.sourcesOf k → s.Among affected p →
        isAffected s affected o.sources (ledger.sourcesOf k) = .ok true := by
      intro o ho hkey p hp hamong
      obtain ⟨key, b, hkey', haff⟩ := h.keyed o ho
      obtain rfl : k = key := Option.some.inj (hkey.symm.trans hkey')
      rwa [(isAffected_ok_iff haff).mpr ⟨p, hp, hamong⟩] at haff
    rintro ⟨⟨o, ho, hkey⟩, p, hp | hp, hamong⟩
    · obtain ⟨o', ho', hkey', hp'⟩ := (hsource p).mp hp
      exact ⟨o', ho', hkey', hfound o' ho' hkey' p (.inl hp') hamong⟩
    · exact ⟨o, ho, hkey, hfound o ho hkey p (.inr hp) hamong⟩

/-- A rebuild that gets through has noted its whole build. -/
theorem noted_rebuildSteps {u : Unit} (hpending : c.pending = .none)
    (hr : (rebuildSteps l ledger affected build).runOn c = (.ok u, c')) :
    Noted l ledger affected c.sources build c' := by
  refine forM_ok_along ⟨rfl, by rw [hpending]; rfl, by simp, by rw [hpending]; simp [Pending.none]⟩
    (fun done o rest _ c₁ c₂ h hr => h.rebuildOutput hr) hr

end Update

end Provenance
