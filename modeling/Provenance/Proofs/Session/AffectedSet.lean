/-
Affected files as a set.

Two lists may name the same sources in different orders, more or less often and by different
spellings, with names among them that denote no source. An update that is told of one of
them should do what it does when it is told of the other: give the same report or fail in
the same way, and leave the same behind. It does, except that it asks whether files are
there in the order in which it is told of them. The first such question that fails ends it,
and the files that came before it stay tracked.

That apart, what comes of the two lists are the same keys, perhaps in another order. From
there on the sessions differ in an order alone, and go side by side.
-/
import Provenance.Proofs.Session.Affected
import Provenance.Proofs.Session.Parallel
import Provenance.Proofs.SourceSet.Shuffle
import Provenance.Proofs.SourceSet.Transparency

set_option autoImplicit false

namespace Provenance

open Action Host

/-! ## Steps that know the same keys -/

namespace Update

variable {ks ks' : List Text}

/-- In what order the affected keys come makes no difference to what is affected. -/
theorem isAffected_of_perm (h : ks.Perm ks') (t : SourceSet) (sources previous : List Path) :
    isAffected t ks sources previous = isAffected t ks' sources previous := by
  have hany : ∀ ps : List Path, anyAffected t ks ps = anyAffected t ks' ps := by
    intro ps
    induction ps with
    | nil => rfl
    | cons p ps ih => rw [anyAffected, anyAffected, ih]; simp only [h.contains_eq]
  rw [isAffected, isAffected, hany, hany]

end Update

namespace Session

/-- The same call, told of other files. -/
def Call.telling (affected : List Affected) : Call → Call
  | .rebuild build _ => .rebuild build affected
  | .edit resolve _ => .edit resolve affected

variable {s s' : Session} {c : Call} {fs gs : List TrackedFile} {affected affected' : List Affected}
  {keys ks ks' : List Text} {d : Disk} {t : SourceSet} {f : TrackedFile}

theorem Call.affected_telling (c : Call) (affected : List Affected) :
    (c.telling affected).affected = affected := by
  cases c <;> rfl

/-- A call that cannot make out which files are affected declines. -/
theorem Call.run_telling_error (c : Call) {e : Failure}
    (h : (affectedKeys affected).runOn s = (.error e, s')) :
    (c.telling affected).run.runOn s = (.error e, s') := by
  rw [← c.affected_telling affected] at h
  exact Call.Declines.run_eq h

/-- A call that knows which files are affected is a cycle. -/
theorem Call.run_telling_ok (c : Call) (h : (affectedKeys affected).runOn s = (.ok keys, s')) :
    (c.telling affected).run.runOn s
      = (cycle c.operation keys.length ((c.telling affected).steps s'.project keys)).runOn s' := by
  rw [← c.affected_telling affected] at h
  rw [Call.run_of_keys h]
  cases c <;> rfl

/-- The steps of a call depend on which keys are affected, and not on their order. -/
theorem Call.steps_of_perm (c : Call) (p : Project) (h : ks.Perm ks') (affected affected' : List Affected) :
    (c.telling affected).steps p ks = (c.telling affected').steps p ks' := by
  cases c with
  | rebuild build _ =>
    show Update.rebuildSteps p.layout p.ledger ks build = Update.rebuildSteps p.layout p.ledger ks' build
    unfold Update.rebuildSteps Update.rebuildOutput
    simp only [Update.isAffected_of_perm h]
  | edit resolve _ =>
    show Update.editSteps p.layout resolve ks = Update.editSteps p.layout resolve ks'
    unfold Update.editSteps
    simp only [h.contains_eq]

/-! ## Two lists of the same files -/

/-- The tracked files that an update is told of were got by spellings. -/
def Genuine (t : SourceSet) (affected : List Affected) : Prop :=
  ∀ f, .tracked f ∈ affected → ∃ raw, t.resolve? raw = some f

/-- The keys of the sources that an update is told of. -/
def Means (t : SourceSet) (affected : List Affected) (key : Text) : Prop :=
  ∃ f ∈ meant t affected, f.path = key

/-- A source that is meant is told by its key. -/
theorem Genuine.place (h : Genuine t affected) (hf : f ∈ meant t affected) : f = t.trackedFile f.path := by
  obtain ⟨a, ha, hfile⟩ := List.mem_filterMap.mp hf
  cases a with
  | spelled raw => exact (SourceSet.trackedFile_of_resolve? hfile).1
  | tracked g =>
    obtain rfl := Option.some.inj hfile
    obtain ⟨raw, hraw⟩ := h g ha
    exact (SourceSet.trackedFile_of_resolve? hraw).1

theorem Genuine.meant_of_means (h : Genuine t affected) (h' : Genuine t affected')
    (hsame : ∀ key, Means t affected key → Means t affected' key) (hf : f ∈ meant t affected) :
    f ∈ meant t affected' := by
  obtain ⟨g, hg, hpath⟩ := hsame f.path ⟨f, hf, rfl⟩
  rw [h.place hf, ← hpath, ← h'.place hg]
  exact hg

/-- What joins the tracked keys comes after them, each key once. -/
theorem foldl_joinKey_eq (t : SourceSet) (d : Disk) (keys : List Text) (fs : List TrackedFile) :
    ∃ new, fs.foldl (joinKey t d) keys = keys ++ new
    ∧ new.Nodup ∧ ∀ k, k ∈ new ↔ k ∉ keys ∧ ∃ f ∈ fs, f.path = k
      ∧ t.rules.isSource f.path = true ∧ d.hasFile f.location = .ok true := by
  -- from the end, as a file that joins comes last
  induction fs using List.reverseRecOn with
  | nil => exact ⟨[], (List.append_nil keys).symm, List.nodup_nil, by simp⟩
  | append_singleton fs f ih =>
    obtain ⟨new, hfold, hnodup, hnew⟩ := ih
    rw [List.foldl_append, List.foldl_cons, List.foldl_nil, hfold, joinKey]
    split
    · rename_i hjoins
      obtain ⟨hasked, hthere⟩ := hjoins
      obtain ⟨hnot, hsource⟩ := isAsked_iff.mp hasked
      rw [List.mem_append, not_or] at hnot
      refine ⟨new ++ [f.path], List.append_assoc .., ?_, fun k => ?_⟩
      · exact List.nodup_append.mpr ⟨hnodup, List.nodup_singleton _, fun a ha b hb hab =>
          hnot.2 (List.mem_singleton.mp hb ▸ hab ▸ ha)⟩
      · rw [List.mem_append, List.mem_singleton, hnew]
        constructor
        · rintro (⟨hk, g, hg, hrest⟩ | rfl)
          · exact ⟨hk, g, List.mem_append_left _ hg, hrest⟩
          · exact ⟨hnot.1, f, by simp, rfl, hsource, hthere⟩
        · rintro ⟨hk, g, hg, hpath, hrest⟩
          rcases List.mem_append.mp hg with hg | hg
          · exact .inl ⟨hk, g, hg, hpath, hrest⟩
          · obtain rfl := List.mem_singleton.mp hg
            exact .inr hpath.symm
    · rename_i hstays
      refine ⟨new, rfl, hnodup, fun k => ?_⟩
      rw [hnew]
      constructor
      · rintro ⟨hk, g, hg, hrest⟩
        exact ⟨hk, g, List.mem_append_left _ hg, hrest⟩
      · rintro ⟨hk, g, hg, rfl, hsource, hthere⟩
        rcases List.mem_append.mp hg with hg | hg
        · exact ⟨hk, g, hg, rfl, hsource, hthere⟩
        · -- the file has not joined, so its key was there already
          obtain rfl := List.mem_singleton.mp hg
          by_contra hno
          refine hstays ⟨isAsked_iff.mpr ⟨fun hmem => ?_, hsource⟩, hthere⟩
          rcases List.mem_append.mp hmem with hmem | hmem
          · exact hk hmem
          · exact hno ((hnew _).mp hmem)

/-- If the same keys are tracked then, they differ at most in their order. -/
theorem perm_foldl_joinKey_iff : (fs.foldl (joinKey t d) keys).Perm (gs.foldl (joinKey t d) keys)
    ↔ ∀ k, k ∈ fs.foldl (joinKey t d) keys ↔ k ∈ gs.foldl (joinKey t d) keys := by
  refine ⟨fun h k => h.mem_iff, fun h => ?_⟩
  obtain ⟨new, hfold, hnodup, hnew⟩ := foldl_joinKey_eq t d keys fs
  obtain ⟨new', hfold', hnodup', hnew'⟩ := foldl_joinKey_eq t d keys gs
  rw [hfold, hfold'] at h ⊢
  refine ((List.perm_ext_iff_of_nodup hnodup hnodup').mpr fun k => ?_).append_left keys
  by_cases hk : k ∈ keys
  · exact iff_of_false (fun hmem => ((hnew k).mp hmem).1 hk) fun hmem => ((hnew' k).mp hmem).1 hk
  · simpa [hk] using h k

/-- The same keys join the tracked ones, in whatever order the files come. -/
theorem foldl_joinKey_perm (h : ∀ f, f ∈ fs ↔ f ∈ gs) :
    (fs.foldl (joinKey t d) keys).Perm (gs.foldl (joinKey t d) keys) := by
  obtain ⟨new, hfold, -, hnew⟩ := foldl_joinKey_eq t d keys fs
  obtain ⟨new', hfold', -, hnew'⟩ := foldl_joinKey_eq t d keys gs
  refine perm_foldl_joinKey_iff.mpr fun k => ?_
  rw [hfold, hfold', List.mem_append, List.mem_append, hnew, hnew']
  simp only [h]

theorem keysOfAll_perm (h : ∀ f, f ∈ fs ↔ f ∈ gs) : (keysOfAll fs).Perm (keysOfAll gs) := by
  refine (List.perm_ext_iff_of_nodup (nodup_keysOfAll fs) (nodup_keysOfAll gs)).mpr fun k => ?_
  rw [mem_keysOfAll, mem_keysOfAll]
  simp only [h]

/-! ## Questions -/

/-- How the first question that fails does so, if one does. -/
def firstTrip? (t : SourceSet) (d : Disk) (keys : List Text) (fs : List TrackedFile) : Option IoError :=
  fs.findSome? (trip? t d keys)

/-- The tracked keys when all questions have been asked, or one has failed. -/
def joined (t : SourceSet) (d : Disk) (keys : List Text) (fs : List TrackedFile) : List Text :=
  (fs.takeWhile fun f => (trip? t d keys f).isNone).foldl (joinKey t d) keys

theorem joined_of_clear (hclear : ∀ f ∈ fs, trip? t d keys f = none) :
    joined t d keys fs = fs.foldl (joinKey t d) keys := by
  rw [joined, List.takeWhile_eq_self_iff.mpr fun f hf => by rw [hclear f hf]; rfl]

/-- A file about which a question fails is asked for in the same way however many others have joined. -/
theorem trip?_foldl_joinKey (hplace : ∀ g ∈ fs, g = t.trackedFile g.path) (hf : f = t.trackedFile f.path)
    {e : IoError} (htrips : trip? t d keys f = some e) :
    trip? t d (fs.foldl (joinKey t d) keys) f = some e := by
  obtain ⟨new, hfold, -, hnew⟩ := foldl_joinKey_eq t d keys fs
  rw [hfold]
  unfold trip? at htrips ⊢
  split at htrips
  swap
  · exact nomatch htrips
  rename_i hasked
  obtain ⟨hunknown, hsource⟩ := isAsked_iff.mp hasked
  have hnot : f.path ∉ keys ++ new := by
    intro hmem
    rcases List.mem_append.mp hmem with hmem | hmem
    · exact hunknown hmem
    -- what has joined is there
    obtain ⟨-, g, hg, hpath, -, hthere⟩ := (hnew f.path).mp hmem
    obtain rfl : g = f := (hplace g hg).trans ((congrArg t.trackedFile hpath).trans hf.symm)
    rw [hthere] at htrips
    exact nomatch htrips
  rw [if_pos (isAsked_iff.mpr ⟨hnot, hsource⟩)]
  exact htrips

/-- What comes of some files that are told by their keys: the first question that fails, or their
keys. -/
theorem trackAll_eq (hknown : s.project.sources.files = some keys)
    (hplace : ∀ f ∈ fs, f = s.project.sources.trackedFile f.path) :
    (trackAll fs).runOn s
      = (match firstTrip? s.project.sources s.host.disk keys fs with
          | none => .ok (keysOfAll fs)
          | some e => .error ⟨.io e, []⟩,
        s.tracking (joined s.project.sources s.host.disk keys fs)) := by
  cases htrip : firstTrip? s.project.sources s.host.disk keys fs with
  | none =>
    have hclear := List.findSome?_eq_none_iff.mp htrip
    rw [joined_of_clear hclear]
    exact trackAll_known hknown hclear
  | some e =>
    obtain ⟨before, f, after, rfl, hf, hclear⟩ := List.findSome?_eq_some_iff.mp htrip
    have hsome : (trip? s.project.sources s.host.disk keys f).isNone = false := by rw [hf]; rfl
    have hbefore : ∀ g ∈ before, g = s.project.sources.trackedFile g.path :=
      fun g hg => hplace g (List.mem_append_left _ hg)
    rw [joined, List.takeWhile_append_of_pos fun g hg => by rw [hclear g hg]; rfl,
      List.takeWhile_cons_of_neg (by rw [hsome]; exact Bool.false_ne_true), List.append_nil]
    exact trackAll_trips hknown hclear (trip?_foldl_joinKey hbefore (hplace f (by simp)) hf) after

/-! ## Shuffled sessions -/

/-- Everything is the same on both sides but the order of the tracked keys. -/
def shuffling : Kinship where
  hosts := Eq
  sources := SourceSet.Shuffled
  readable _ _ := True
  counts := Eq
  lasts := Eq

theorem lawful_shuffling : shuffling.Lawful where
  mirroring := mirroring_eq
  touch _ := lockstep_self _
  rules h := h.sameRules
  listed h := h ▸ SourceSet.lockstep_listed (.refl _)
  unitOf h _ := h ▸ SourceSet.lockstep_unitOf (.refl _) rfl
  readClock := lockstep_self _
  track h f := h ▸ SourceSet.lockstep_trackIfPresent (.refl _) f
  append {_} _ {n n'} _ hn := by
    obtain rfl : n = n' := hn
    exact lockstep_self _
  next h := congrArg (· + 1) h
  reported _ := rfl

/-- Two calls that have ended in the same way, and have left the same but for the order of the tracked
keys. -/
structure SameEnd (r r' : Except Failure Report × Session) : Prop where
  result : r'.1 = r.1
  host : r'.2.host = r.2.host
  sources : SourceSet.Shuffled r.2.project.sources r'.2.project.sources
  project : r'.2.project = { r.2.project with sources := r'.2.project.sources }

theorem sameEnd_of_abreast {r r' : Except Failure Report × Session}
    (h : Abreast shuffling.Sessions shuffling.Reports r r') : SameEnd r r' := by
  obtain ⟨hmatch, hs⟩ := h
  refine ⟨(hmatch.imp ?_).eq.symm, hs.hosts.symm, hs.sources, ?_⟩
  · rintro a b ⟨n, n', hn, hid, rfl⟩
    obtain rfl : n = n' := hn
    rw [← hid]
  · -- of all the parts of a session only the sources may differ
    obtain ⟨-, -, hsettings, hjournal, hentries, hgeneration, hcycles, hlast, -, -⟩ := hs
    obtain ⟨x, h, settings, sources, ⟨generation, entries⟩, journal, cycles, last⟩ := r
    obtain ⟨x', h', settings', sources', ⟨generation', entries'⟩, journal', cycles', last'⟩ := r'
    dsimp only at hsettings hjournal hentries
    obtain rfl : generation = generation' := hgeneration
    obtain rfl : cycles = cycles' := hcycles
    obtain rfl : last = last' := hlast
    subst hsettings hjournal hentries
    rfl

/-- Sessions that know the same keys are shuffled. -/
theorem shuffled_tracking (hs : s.Sound) (h : ks.Perm ks') :
    shuffling.Sessions (s.tracking ks) (s.tracking ks') where
  hosts := rfl
  sources := (SourceSet.Shuffled.refl _).knowing h
  settings := rfl
  journal := rfl
  entries := rfl
  generation := rfl
  cycles := rfl
  last := rfl
  layout := hs.layout
  absolute p hp := (hs.journal p hp).isAbsolute

/-! ## Calls -/

/-- What a call makes of the files that it is told of, if there are any. -/
theorem affectedKeys_run (hkeys : s.project.sources.keysOn s.host.disk = .ok keys)
    (hgenuine : Genuine s.project.sources affected) (hne : meant s.project.sources affected ≠ []) :
    (affectedKeys affected).runOn s
      = (match firstTrip? s.project.sources s.host.disk keys (meant s.project.sources affected) with
          | none => .ok (keysOfAll (meant s.project.sources affected))
          | some e => .error ⟨.io e, []⟩,
        s.tracking (joined s.project.sources s.host.disk keys (meant s.project.sources affected))) := by
  rw [affectedKeys_eq, trackAll_tracking hkeys hne]
  exact trackAll_eq (s := s.tracking keys) rfl fun f hf => hgenuine.place hf

/-- Calls that have made out the same keys come to the same. -/
theorem sameEnd_of_keys (hs : s.Sound) (hks : ks.Perm ks') {keys' : List Text} (hkeys : keys.Perm keys')
    (h : (affectedKeys affected).runOn s = (.ok keys, s.tracking ks))
    (h' : (affectedKeys affected').runOn s = (.ok keys', s.tracking ks')) :
    SameEnd ((c.telling affected).run.runOn s) ((c.telling affected').run.runOn s) := by
  rw [c.run_telling_ok h, c.run_telling_ok h', hkeys.length_eq]
  have hshuffled := shuffled_tracking hs hks
  refine sameEnd_of_abreast (abreast_cycle lawful_shuffling hshuffled ?_)
  rw [c.steps_of_perm _ hkeys affected affected']
  exact Call.abreast_steps lawful_shuffling hshuffled keys' fun _ _ _ => trivial

theorem sameEnd_refl (r : Except Failure Report × Session) : SameEnd r r := ⟨rfl, rfl, .refl _, rfl⟩

/-- Calls that have found no files, or cannot find the files to track, come to the same. -/
theorem sameEnd_of_same {r : Except Failure (List Text)} {t : Session}
    (h : (affectedKeys affected).runOn s = (r, t)) (h' : (affectedKeys affected').runOn s = (r, t)) :
    SameEnd ((c.telling affected).run.runOn s) ((c.telling affected').run.runOn s) := by
  cases r with
  | error f =>
    rw [c.run_telling_error h, c.run_telling_error h']
    exact sameEnd_refl _
  | ok keys =>
    rw [c.run_telling_ok h, c.run_telling_ok h', c.steps_of_perm _ (.refl keys) affected affected']
    exact sameEnd_refl _

/-- Calls that have declined because a question failed. -/
theorem sameEnd_declined_iff {e e' : IoError} :
    SameEnd (.error ⟨.io e, []⟩, s.tracking ks) (.error ⟨.io e', []⟩, s.tracking ks')
      ↔ e = e' ∧ ks.Perm ks' := by
  constructor
  · rintro ⟨hresult, -, hsources, -⟩
    have hfailure := Except.error.inj hresult
    have hfiles : Option.Rel List.Perm (some ks) (some ks') := hsources.files
    cases hfiles with
    | some hks => exact ⟨(Cause.io.inj (congrArg Failure.cause hfailure)).symm, hks⟩
  · rintro ⟨rfl, hks⟩
    exact ⟨rfl, rfl, (SourceSet.Shuffled.refl _).knowing hks, rfl⟩

/-- Two lists that name the same sources make no difference to a call, if all questions whether a file
is there are answered, or the first that fails is the same for both and the same files have joined the
tracked ones before it; and only then. -/
theorem told_as_set_iff (hs : Reachable s) (hgenuine : Genuine s.project.sources affected)
    (hgenuine' : Genuine s.project.sources affected')
    (hsame : ∀ key, Means s.project.sources affected key ↔ Means s.project.sources affected' key) :
    SameEnd ((c.telling affected).run.runOn s) ((c.telling affected').run.runOn s)
      ↔ ∀ keys, s.project.sources.keysOn s.host.disk = .ok keys →
        (∀ f ∈ meant s.project.sources affected, trip? s.project.sources s.host.disk keys f = none)
        ∨ (firstTrip? s.project.sources s.host.disk keys (meant s.project.sources affected)
            = firstTrip? s.project.sources s.host.disk keys (meant s.project.sources affected')
          ∧ ∀ k, k ∈ joined s.project.sources s.host.disk keys (meant s.project.sources affected)
            ↔ k ∈ joined s.project.sources s.host.disk keys (meant s.project.sources affected')) := by
  have hmem : ∀ f, f ∈ meant s.project.sources affected ↔ f ∈ meant s.project.sources affected' :=
    fun f => ⟨hgenuine.meant_of_means hgenuine' fun key => (hsame key).mp,
      hgenuine'.meant_of_means hgenuine fun key => (hsame key).mpr⟩
  -- where no source is named, nothing is asked and nothing becomes tracked
  by_cases hnil : meant s.project.sources affected = []
  · have hnil' : meant s.project.sources affected' = [] :=
      List.eq_nil_iff_forall_not_mem.mpr fun f hf => by simpa [hnil] using (hmem f).mpr hf
    refine iff_of_true ?_ fun keys _ => .inl fun f hf => by simp [hnil] at hf
    refine sameEnd_of_same (r := .ok []) (t := s) ?_ ?_
    · rw [affectedKeys_eq, hnil]
      rfl
    · rw [affectedKeys_eq, hnil']
      rfl
  have hnil' : meant s.project.sources affected' ≠ [] := fun h' =>
    hnil (List.eq_nil_iff_forall_not_mem.mpr fun f hf => by simpa [h'] using (hmem f).mp hf)
  -- where it cannot be told what is tracked, both calls fail before any question
  rcases hkeys : s.project.sources.keysOn s.host.disk with e | keys
  · refine iff_of_true (sameEnd_of_same (r := .error ⟨e, []⟩) (t := s) ?_ ?_) fun keys h => nomatch h
    · rw [affectedKeys_eq, trackAll_of_error hkeys hnil]
    · rw [affectedKeys_eq, trackAll_of_error hkeys hnil']
  have hrun := affectedKeys_run hkeys hgenuine hnil
  have hrun' := affectedKeys_run hkeys hgenuine' hnil'
  -- a question about one list fails if and only if one about the other does, but perhaps another one
  have hnone : firstTrip? s.project.sources s.host.disk keys (meant s.project.sources affected) = none
      ↔ firstTrip? s.project.sources s.host.disk keys (meant s.project.sources affected') = none := by
    rw [firstTrip?, firstTrip?, List.findSome?_eq_none_iff, List.findSome?_eq_none_iff]
    simp only [hmem]
  have hone : ∀ {Q : List Text → Prop}, (∀ keys', Except.ok keys = (.ok keys' : Except Cause _) → Q keys')
      ↔ Q keys := ⟨fun h => h keys rfl, fun h keys' heq => Except.ok.inj heq ▸ h⟩
  rw [hone]
  cases htrip : firstTrip? s.project.sources s.host.disk keys (meant s.project.sources affected) with
  | none =>
    have hclear := List.findSome?_eq_none_iff.mp htrip
    have hclear' := List.findSome?_eq_none_iff.mp (hnone.mp htrip)
    rw [htrip, joined_of_clear hclear] at hrun
    rw [hnone.mp htrip, joined_of_clear hclear'] at hrun'
    exact iff_of_true
      (sameEnd_of_keys hs.sound (foldl_joinKey_perm hmem) (keysOfAll_perm hmem) hrun hrun') (.inl hclear)
  | some e =>
    cases htrip' : firstTrip? s.project.sources s.host.disk keys (meant s.project.sources affected') with
    | none => exact nomatch htrip.symm.trans (hnone.mpr htrip')
    | some e' =>
      rw [htrip] at hrun
      rw [htrip'] at hrun'
      rw [c.run_telling_error hrun, c.run_telling_error hrun', sameEnd_declined_iff, Option.some.injEq]
      refine ⟨fun ⟨he, hperm⟩ => .inr ⟨he, fun k => hperm.mem_iff⟩, ?_⟩
      rintro (hclear | ⟨he, hjoined⟩)
      · exact nomatch htrip.symm.trans (List.findSome?_eq_none_iff.mpr hclear)
      · exact ⟨he, perm_foldl_joinKey_iff.mpr hjoined⟩

/-- A second source of the small project. -/
def another : List (Location × Entry) :=
  [(["p".toList, "src".toList, "B.kt".toList], .file (Utf8.encode "class B\n".toList) 1)]

/-- The second source as a tracked file. -/
def anotherFile : TrackedFile :=
  ⟨"src/B.kt".toList, ⟨.root, ["p".toList, "src".toList, "B.kt".toList]⟩⟩

/-- Both sources of the small project. -/
def bothOnce : List Affected := [.spelled "src/A.kt".toList, .spelled "src/B.kt".toList]

/-- Both sources of the small project, one of them twice, and something that is no source. -/
def bothAgain : List Affected :=
  [.tracked anotherFile, .spelled "lib/none.kt".toList, .spelled "./src/../src/A.kt".toList,
    .spelled "/p/src/B.kt".toList]

/-- Two lists that name the two sources of the small project in either order. None of them is tracked,
and both are from then on. -/
theorem told_as_set_small : ∃ s, Reachable s ∧ Genuine s.project.sources bothOnce
    ∧ Genuine s.project.sources bothAgain
    ∧ (∀ key, Means s.project.sources bothOnce key ↔ Means s.project.sources bothAgain key)
    ∧ Ends ((Call.rebuild smallBuild bothOnce).run.runOn s)
      (fun _ s' => s'.project.sources.files = some ["src/A.kt".toList, "src/B.kt".toList])
      (fun _ _ => False)
    ∧ Ends ((Call.rebuild smallBuild bothAgain).run.runOn s)
      (fun _ s' => s'.project.sources.files = some ["src/B.kt".toList, "src/A.kt".toList])
      (fun _ _ => False)
    ∧ SameEnd ((Call.rebuild smallBuild bothOnce).run.runOn s)
      ((Call.rebuild smallBuild bothAgain).run.runOn s) := by
  have hrun : ((small? another).map fun s => decide (
      let s' := (Act.retrack (some []) []).perform s
      let file : TrackedFile := ⟨"src/A.kt".toList, smallSource⟩
      meant s'.project.sources bothOnce = [file, anotherFile]
      ∧ meant s'.project.sources bothAgain = [anotherFile, file, anotherFile]
      ∧ s'.project.sources.resolve? "src/B.kt".toList = some anotherFile
      ∧ trip? s'.project.sources s'.host.disk [] file = none
      ∧ trip? s'.project.sources s'.host.disk [] anotherFile = none
      ∧ Ends ((Call.rebuild smallBuild bothOnce).run.runOn s')
        (fun _ s'' => s''.project.sources.files = some ["src/A.kt".toList, "src/B.kt".toList])
        (fun _ _ => False)
      ∧ Ends ((Call.rebuild smallBuild bothAgain).run.runOn s')
        (fun _ s'' => s''.project.sources.files = some ["src/B.kt".toList, "src/A.kt".toList])
        (fun _ _ => False))) = some true := by
    decide +kernel
  obtain ⟨s₀, hs₀, h⟩ := Option.map_eq_some_iff.mp hrun
  obtain ⟨honce, hagain, hresolve, hclear, hclear', hends, hends'⟩ := of_decide_eq_true h
  have hreach : Reachable ((Act.retrack (some []) []).perform s₀) :=
    .after _ (reachable_small (by decide +kernel) (by decide +kernel) hs₀) trivial
  have hgenuine : Genuine ((Act.retrack (some []) []).perform s₀).project.sources bothOnce :=
    fun f hf => by simp [bothOnce] at hf
  have hgenuine' : Genuine ((Act.retrack (some []) []).perform s₀).project.sources bothAgain := by
    intro f hf
    obtain rfl : f = anotherFile := by simpa [bothAgain] using hf
    exact ⟨_, hresolve⟩
  have hsame : ∀ key, Means ((Act.retrack (some []) []).perform s₀).project.sources bothOnce key
      ↔ Means ((Act.retrack (some []) []).perform s₀).project.sources bothAgain key := by
    intro key
    rw [Means, Means, honce, hagain]
    simp [or_comm]
  refine ⟨_, hreach, hgenuine, hgenuine', hsame, hends, hends', ?_⟩
  refine (told_as_set_iff (c := .rebuild smallBuild []) hreach hgenuine hgenuine' hsame).mpr
    fun keys hkeys => .inl fun f hf => ?_
  obtain rfl : [] = keys := Except.ok.inj hkeys
  rw [honce] at hf
  rcases List.mem_cons.mp hf with rfl | hf
  · exact hclear
  · obtain rfl := List.mem_singleton.mp hf
    exact hclear'

/-- Two sources with names that no file can have. -/
def bothTooLong : List Affected :=
  [.spelled SourceSet.longKey, .spelled ("src/".toList ++ List.replicate 300 'm' ++ ".kt".toList)]

/-- Which of two questions fails first depends on the order in which files are named, and the call fails
with the one or the other. -/
theorem not_told_as_set_too_long : ∃ s f f' s₁ s₂, Reachable s ∧ Genuine s.project.sources bothTooLong
    ∧ Genuine s.project.sources bothTooLong.reverse
    ∧ (∀ key, Means s.project.sources bothTooLong key ↔ Means s.project.sources bothTooLong.reverse key)
    ∧ (Call.rebuild [] bothTooLong).run.runOn s = (.error f, s₁)
    ∧ (Call.rebuild [] bothTooLong.reverse).run.runOn s = (.error f', s₂) ∧ f ≠ f' := by
  have hrun : ((small? []).map fun s => decide (
      Ends ((Call.rebuild [] bothTooLong).run.runOn s) (fun _ _ => False) (fun f _ =>
        Ends ((Call.rebuild [] bothTooLong.reverse).run.runOn s) (fun _ _ => False)
          (fun f' _ => f ≠ f')))) = some true := by
    decide +kernel
  obtain ⟨s, hs, h⟩ := Option.map_eq_some_iff.mp hrun
  have hends := of_decide_eq_true h
  have hspelled : ∀ g, .tracked g ∉ bothTooLong := by
    intro g hg
    rcases List.mem_cons.mp hg with heq | hg
    · exact nomatch heq
    · exact nomatch List.mem_singleton.mp hg
  rcases hr : (Call.rebuild [] bothTooLong).run.runOn s with ⟨f | report, s₁⟩
  swap
  · rw [hr] at hends
    exact hends.elim
  rw [hr] at hends
  rcases hr' : (Call.rebuild [] bothTooLong.reverse).run.runOn s with ⟨f' | report, s₂⟩
  swap
  · rw [ends_error, hr'] at hends
    exact hends.elim
  rw [ends_error, hr'] at hends
  refine ⟨s, f, f', s₁, s₂, reachable_small (by decide +kernel) (by decide +kernel) hs,
    fun g hg => absurd hg (hspelled g), fun g hg => absurd (List.mem_reverse.mp hg) (hspelled g),
    fun key => ?_, hr, hr', hends⟩
  rw [Means, Means, meant, meant, List.filterMap_reverse]
  simp only [List.mem_reverse]

end Session

end Provenance
