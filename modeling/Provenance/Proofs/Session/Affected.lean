/-
Files that an update is told of.

An update is told of its affected files in a list, by spellings or as tracked files. It
takes from the list the keys of those that denote sources, each once, and tracks the ones
that have come into being. So it makes no difference to what it comes to how often a file
is named and where, as long as no question whether a file is there fails.
-/
import Provenance.Proofs.Session.Resolution

set_option autoImplicit false

namespace Provenance.Session

open Action Host

variable {s s' : Session} {f : TrackedFile} {fs gs : List TrackedFile} {affected : List Affected}
  {keys : List Text} {k : Text} {d : Disk} {t : SourceSet}

/-! ## From spellings to files -/

/-- The sources that an update is told of, in the order in which it is told of them. -/
def meant (t : SourceSet) (affected : List Affected) : List TrackedFile :=
  affected.filterMap (Affected.file? t)

/-- The rules alone tell which sources are meant. -/
theorem file?_of_sameRules {t' : SourceSet} (h : SourceSet.SameRules t t') (a : Affected) :
    a.file? t' = a.file? t := by
  cases a with
  | spelled raw => exact h.resolve? raw
  | tracked f => rfl

/-- Tracks some files if they are there, and gives their keys, each once. -/
def trackAll : List TrackedFile → Action Session (List Text)
  | [] => return []
  | f :: rest => do
    let _ ← onSources (SourceSet.trackIfPresent · f)
    let keys ← trackAll rest
    return if keys.contains f.path then keys else f.path :: keys

/-- What an update does about its affected files is what it does about the sources among them. -/
theorem affectedKeys_eq (affected : List Affected) (s : Session) :
    (affectedKeys affected).runOn s = (trackAll (meant s.project.sources affected)).runOn s := by
  induction affected generalizing s with
  | nil => rfl
  | cons a rest ih =>
    unfold affectedKeys
    rw [runOn_bind_ok (runOn_get s)]
    cases ha : a.file? s.project.sources with
    | none =>
      rw [meant, List.filterMap_cons_none ha]
      exact ih s
    | some f =>
      rw [meant, List.filterMap_cons_some ha, trackAll, runOn_bind, runOn_bind]
      have hrules := (sameSetup_track f s).rules
      rcases hr : (onSources (SourceSet.trackIfPresent · f)).runOn s with ⟨er | b, s₁⟩
      · rfl
      rw [hr] at hrules
      have hmeant : meant s₁.project.sources rest = rest.filterMap (Affected.file? s.project.sources) :=
        List.filterMap_congr fun a _ => file?_of_sameRules hrules a
      dsimp only
      rw [runOn_bind, runOn_bind, ih, hmeant]

/-! ## Tracking -/

/-- The session when its tracked keys are known. -/
def tracking (s : Session) (keys : List Text) : Session :=
  { s with project := { s.project with sources := s.project.sources.knowing keys } }

/-- Whether it is asked for a file if it is there: it is a source that is not tracked. -/
def isAsked (t : SourceSet) (keys : List Text) (f : TrackedFile) : Bool :=
  !keys.contains f.path && t.rules.isSource f.path

/-- How the question whether a file is there fails, if it is asked. -/
def trip? (t : SourceSet) (d : Disk) (keys : List Text) (f : TrackedFile) : Option IoError :=
  if isAsked t keys f then
    match d.hasFile f.location with
    | .error er => some (.ofErrno er f.location)
    | .ok _ => none
  else none

/-- The tracked keys when a file has been tracked if it is there. -/
def joinKey (t : SourceSet) (d : Disk) (keys : List Text) (f : TrackedFile) : List Text :=
  if isAsked t keys f ∧ d.hasFile f.location = .ok true then keys ++ [f.path]
  else keys

/-- The keys of some files, each once. -/
def keysOfAll (fs : List TrackedFile) : List Text :=
  fs.foldr (fun f keys => if keys.contains f.path then keys else f.path :: keys) []

theorem mem_keysOfAll : k ∈ keysOfAll fs ↔ ∃ f ∈ fs, f.path = k := by
  induction fs with
  | nil => simp [keysOfAll]
  | cons f fs ih =>
    rw [keysOfAll, List.foldr_cons, ← keysOfAll]
    split
    · rename_i hmem
      constructor
      · intro hk
        obtain ⟨g, hg, heq⟩ := ih.mp hk
        exact ⟨g, List.mem_cons_of_mem _ hg, heq⟩
      · rintro ⟨g, hg, rfl⟩
        rcases List.mem_cons.mp hg with rfl | hg
        · exact List.contains_iff_mem.mp hmem
        · exact ih.mpr ⟨g, hg, rfl⟩
    · rw [List.mem_cons, ih]
      simp [eq_comm]

theorem nodup_keysOfAll (fs : List TrackedFile) : (keysOfAll fs).Nodup := by
  induction fs with
  | nil => exact List.nodup_nil
  | cons f fs ih =>
    rw [keysOfAll, List.foldr_cons, ← keysOfAll]
    split
    · exact ih
    · rename_i hnot
      exact List.nodup_cons.mpr ⟨fun hmem => hnot (List.contains_iff_mem.mpr hmem), ih⟩

theorem tracking_self (h : s.project.sources.files = some keys) : s.tracking keys = s := by
  rw [tracking, SourceSet.knowing_self h]

theorem isAsked_iff : isAsked t keys f = true ↔ f.path ∉ keys ∧ t.rules.isSource f.path = true := by
  rw [isAsked, Bool.and_eq_true, Bool.not_eq_true', Bool.eq_false_iff, ne_eq, List.contains_iff_mem]

theorem trip?_of_tracked (h : f.path ∈ keys) : trip? t d keys f = none :=
  if_neg fun hasked => (isAsked_iff.mp hasked).1 h

/-- What has joined the tracked keys is asked for no more. -/
theorem trip?_joinKey (h : trip? t d keys f = none) (g : TrackedFile) :
    trip? t d (joinKey t d keys g) f = none := by
  rw [joinKey]
  split
  · by_cases hmem : f.path ∈ keys ++ [g.path]
    · exact trip?_of_tracked hmem
    · have hnot : f.path ∉ keys := fun hmem' => hmem (List.mem_append_left _ hmem')
      have hasked : isAsked t (keys ++ [g.path]) f = isAsked t keys f := by
        rw [Bool.eq_iff_iff, isAsked_iff, isAsked_iff, and_iff_right hmem, and_iff_right hnot]
      rwa [trip?, hasked]
  · exact h

/-- A file joins the tracked keys, or the question whether it is there fails. -/
theorem track_known (hknown : s.project.sources.files = some keys) (f : TrackedFile) :
    (∃ e, trip? s.project.sources s.host.disk keys f = some e
        ∧ (onSources (SourceSet.trackIfPresent · f)).runOn s = (.error ⟨.io e, []⟩, s))
      ∨ (trip? s.project.sources s.host.disk keys f = none
        ∧ ∃ b, (onSources (SourceSet.trackIfPresent · f)).runOn s
          = (.ok b, s.tracking (joinKey s.project.sources s.host.disk keys f))) := by
  have hself := tracking_self hknown
  rw [runOn_onSources, SourceSet.trackIfPresent_known hknown]
  by_cases htracked : f.path ∈ keys
  · refine .inr ⟨trip?_of_tracked htracked, true, ?_⟩
    rw [if_pos (List.contains_iff_mem.mpr htracked), joinKey,
      if_neg fun h => (isAsked_iff.mp h.1).1 htracked, hself]
  rw [if_neg fun h => htracked (List.contains_iff_mem.mp h)]
  by_cases hsource : s.project.sources.rules.isSource f.path = true
  swap
  · refine .inr ⟨if_neg fun h => hsource (isAsked_iff.mp h).2, false, ?_⟩
    rw [if_neg hsource, joinKey, if_neg fun h => hsource (isAsked_iff.mp h.1).2, hself]
  have hasked := isAsked_iff.mpr ⟨htracked, hsource⟩
  rw [if_pos hsource, trip?, if_pos hasked]
  rcases hthere : s.host.disk.hasFile f.location with er | _ | _
  · exact .inl ⟨_, rfl, rfl⟩
  · refine .inr ⟨rfl, false, ?_⟩
    rw [joinKey, if_neg fun h => Bool.noConfusion (Except.ok.inj (hthere.symm.trans h.2)), hself]
  · refine .inr ⟨rfl, true, ?_⟩
    rw [joinKey, if_pos ⟨hasked, hthere⟩]
    rfl

/-- If all questions are answered, the files that are there have joined the tracked keys. -/
theorem trackAll_known (hknown : s.project.sources.files = some keys)
    (hclear : ∀ f ∈ fs, trip? s.project.sources s.host.disk keys f = none) :
    (trackAll fs).runOn s = (.ok (keysOfAll fs),
      s.tracking (fs.foldl (joinKey s.project.sources s.host.disk) keys)) := by
  induction fs generalizing s keys with
  | nil => rw [List.foldl_nil, tracking_self hknown]; rfl
  | cons f fs ih =>
    obtain ⟨hf, hfs⟩ := List.forall_mem_cons.mp hclear
    rcases track_known hknown f with ⟨e, htrips, -⟩ | ⟨-, b, hrun⟩
    · exact nomatch hf.symm.trans htrips
    rw [List.foldl_cons, trackAll, runOn_bind_ok hrun]
    exact runOn_bind_ok (ih (s := s.tracking (joinKey s.project.sources s.host.disk keys f)) rfl
      fun g hg => trip?_joinKey (hfs g hg) f)

/-- The first question that fails ends it all. The files before it that are there have joined the
tracked keys. -/
theorem trackAll_trips {e : IoError} (hknown : s.project.sources.files = some keys)
    (hclear : ∀ g ∈ fs, trip? s.project.sources s.host.disk keys g = none)
    (hf : trip? s.project.sources s.host.disk
      (fs.foldl (joinKey s.project.sources s.host.disk) keys) f = some e) (gs : List TrackedFile) :
    (trackAll (fs ++ f :: gs)).runOn s = (.error ⟨.io e, []⟩,
      s.tracking (fs.foldl (joinKey s.project.sources s.host.disk) keys)) := by
  induction fs generalizing s keys with
  | nil =>
    rcases track_known hknown f with ⟨e', htrips, hrun⟩ | ⟨hnone, -⟩
    · obtain rfl : e = e' := Option.some.inj (hf.symm.trans htrips)
      rw [List.foldl_nil, tracking_self hknown]
      exact runOn_bind_error hrun
    · exact nomatch hnone.symm.trans hf
  | cons g fs ih =>
    obtain ⟨hg, hfs⟩ := List.forall_mem_cons.mp hclear
    rcases track_known hknown g with ⟨e', htrips, -⟩ | ⟨-, b, hrun⟩
    · exact nomatch hg.symm.trans htrips
    rw [List.foldl_cons, List.cons_append, trackAll, runOn_bind_ok hrun]
    exact runOn_bind_error (ih (s := s.tracking (joinKey s.project.sources s.host.disk keys g)) rfl
      (fun g' hg' => trip?_joinKey (hfs g' hg') g) hf)

/-- Whatever is done about some files, if there are any, is done when the tracked keys are known. -/
theorem trackAll_tracking (hkeys : s.project.sources.keysOn s.host.disk = .ok keys) (hne : fs ≠ []) :
    (trackAll fs).runOn s = (trackAll fs).runOn (s.tracking keys) := by
  cases fs with
  | nil => exact absurd rfl hne
  | cons f fs =>
    have hfirst : (onSources (SourceSet.trackIfPresent · f)).runOn s
        = (onSources (SourceSet.trackIfPresent · f)).runOn (s.tracking keys) := by
      rw [runOn_onSources, runOn_onSources]
      have hsame := SourceSet.runOn_tracks_bind (f := f) (k := fun tracked => do
        if tracked then return true
        if !(← get).rules.isSource f.path then return false
        let present ← Action.ofExcept (fun e => .io (.ofErrno e f.location))
          (s.host.disk.hasFile f.location)
        if present then SourceSet.join f.path
        return present) hkeys
      rw [show (SourceSet.trackIfPresent s.host.disk f).runOn s.project.sources
        = (SourceSet.trackIfPresent s.host.disk f).runOn (s.project.sources.knowing keys) from hsame]
      rfl
    rw [trackAll, runOn_bind, runOn_bind, hfirst]

/-- Where the files to track cannot be found, nothing is done about any. -/
theorem trackAll_of_error {cause : Cause} (hkeys : s.project.sources.keysOn s.host.disk = .error cause)
    (hne : fs ≠ []) : (trackAll fs).runOn s = (.error ⟨cause, []⟩, s) := by
  cases fs with
  | nil => exact absurd rfl hne
  | cons f fs =>
    rw [trackAll, runOn_bind, runOn_onSources]
    rw [show (SourceSet.trackIfPresent s.host.disk f).runOn s.project.sources
      = (.error ⟨cause, []⟩, s.project.sources) from
        runOn_bind_error (SourceSet.tracks_of_error hkeys)]

/-- Files that are tracked stay so, and no other file joins them. -/
theorem foldl_joinKey_of_tracked (h : ∀ f ∈ fs, f.path ∈ keys) : fs.foldl (joinKey t d) keys = keys := by
  induction fs with
  | nil => rfl
  | cons f fs ih =>
    obtain ⟨hf, hfs⟩ := List.forall_mem_cons.mp h
    rw [List.foldl_cons, joinKey, if_neg fun h => (isAsked_iff.mp h.1).1 hf, ih hfs]

end Provenance.Session
