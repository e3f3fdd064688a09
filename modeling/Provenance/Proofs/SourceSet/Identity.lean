/-
The identity of tracked files.

A tracked file is known by its key, and a spelling comes to a file by way of a key again. The two
ways are not the same: discovery puts a key together from the names of entries, while a spelling
is read, with backslashes for slashes. So a file is found again by its key and by its location
just if these have no backslash. A name may have one, and such a file is tracked under a key that
no spelling comes to; what its location comes to is another file, if it is one at all.

Every key that is tracked was discovered, or joined with a file that a spelling came to. What a key
is then is told once (`IsKey`), and kept by all requests.
-/
import Provenance.Proofs.SourceSet.Discovery
import Provenance.Proofs.Spelling
import Provenance.Proofs.Update.Record

set_option autoImplicit false

namespace Provenance.SourceSet

open Action

variable {d : Disk} {p root : Path} {rules : SourceSettings} {s s' : SourceSet} {key raw : Text}
  {names dir below : List Text} {f g : TrackedFile} {e : Entry} {keys : List Text} {ms : List Moment}
  {r : Request}

/-! ## Keys -/

/-- What is tracked as a key: the key of a source, of names that are read as they are. -/
def IsKey (root : Path) (rules : SourceSettings) (key : Text) : Prop :=
  rules.isSource key = true ∧ ∃ names, names ≠ [] ∧ (∀ n ∈ names, Path.IsPiece n)
    ∧ (root.descend names).byName = root.descend names ∧ key = keyOf names

/-- The location of a key goes through its names. -/
theorem location_trackedFile (s : SourceSet) (h : ∀ n ∈ names, Path.IsPiece n) :
    (s.trackedFile (keyOf names)).location = s.root.descend names := by
  rw [trackedFile, Path.ofText_join h]
  rfl

/-- A spelling comes to the tracked file of a source if it comes to its key. -/
theorem resolve?_eq_iff (h : s.rules.isSource key = true) :
    s.resolve? raw = some (s.trackedFile key) ↔ Path.normalizeKey? s.root raw = some key := by
  unfold resolve?
  constructor
  · intro hresolve
    split at hresolve
    · rename_i k hk
      split at hresolve
      · rw [hk]
        exact congrArg (some ∘ TrackedFile.path) (Option.some.inj hresolve)
      · simp at hresolve
    · simp at hresolve
  · intro hkey
    rw [hkey]
    exact if_pos h

theorem resolve?_path_iff (hroot : s.root.Normal) (h : IsKey s.root s.rules key) :
    s.resolve? key = some (s.trackedFile key) ↔ '\\' ∉ key := by
  obtain ⟨hsource, names, hne, hpieces, hfixed, rfl⟩ := h
  rw [resolve?_eq_iff hsource]
  exact Path.normalizeKey?_key_iff hroot hne hpieces hfixed

theorem resolve?_location_iff (hroot : s.root.Normal) (h : IsKey s.root s.rules key) :
    s.resolve? (s.trackedFile key).location.text = some (s.trackedFile key)
      ↔ '\\' ∉ (s.trackedFile key).location.text := by
  obtain ⟨hsource, names, hne, hpieces, hfixed, rfl⟩ := h
  rw [resolve?_eq_iff hsource, location_trackedFile s hpieces]
  exact Path.normalizeKey?_text_iff hroot hne hpieces hfixed

/-! ## Where keys come from -/

/-- What a spelling comes to has a key. -/
theorem isKey_of_resolve? (hroot : s.root.Normal)
    (hroots : ∀ dir ∈ s.rules.roots, Settings.IsDirectory dir) (h : s.resolve? raw = some f) :
    IsKey s.root s.rules f.path := by
  obtain ⟨hself, hsource⟩ := trackedFile_of_resolve? h
  have hkey : Path.normalizeKey? s.root raw = some f.path :=
    (resolve?_eq_iff hsource).mp (h.trans (congrArg some hself))
  obtain ⟨names, htext, hresolve⟩ := Path.exists_of_normalizeKey? hkey
  have hpieces : ∀ n ∈ names, Path.IsPiece n := fun n hn =>
    Path.isPiece_of_mem_namesIn ((Path.names_of_resolveSpelling hroot hresolve).1 hn)
  have hne : names ≠ [] := by
    rintro rfl
    -- the root itself is no source
    rw [htext] at hsource
    exact Bool.noConfusion ((not_isSource_dot hroots).symm.trans hsource)
  exact ⟨hsource, names, hne, hpieces, Path.byName_of_resolveSpelling hresolve,
    htext.trans (Path.text_here hne hpieces)⟩

/-- What a search of a source directory gives are keys of names below it. -/
theorem exists_of_foundBelow (hd : d.Legal) (hdir : ∀ n ∈ dir, Path.IsName n)
    (h : foundBelow d root rules (root.descend dir) = .ok keys) :
    ∀ key ∈ keys, ∃ below e, below ≠ [] ∧ (∀ n ∈ below, Path.IsName n)
      ∧ reports rules ⟨.here, dir⟩ below e = true ∧ key = keyOf (dir ++ below) := by
  unfold foundBelow at h
  split at h
  · simp at h
  · obtain rfl := Except.ok.inj h
    simp
  split at h
  · simp at h
  rename_i l _ hstat
  split at h
  · obtain rfl := Except.ok.inj h
    simp
  rw [Path.relativeTo?_descend] at h
  obtain rfl := Except.ok.inj h
  intro key hkey
  obtain ⟨⟨below, e⟩, hmem, rfl⟩ := List.mem_map.mp hkey
  obtain ⟨hlisted, hreports⟩ := List.mem_filter.mp hmem
  obtain ⟨hne, he⟩ := hd.tree.nodes.mem_inside.mp (List.mem_filter.mp hlisted).1
  have hbelow : ∀ n ∈ below, Path.IsName n := fun n hn =>
    hd.tree.nodes.isName (Option.isSome_iff_exists.mpr ⟨e, he⟩) n (List.mem_append_right _ hn)
  refine ⟨below, e, hne, hbelow, hreports, Path.text_here (by simp [hne]) fun n hn => ?_⟩
  exact (List.mem_append.mp hn).elim (fun h => (hdir n h).1) fun h => (hbelow n h).1

theorem exists_of_foundBelowAll (hd : d.Legal) {dirs : List Text}
    (hdirs : ∀ dir ∈ dirs, Settings.IsDirectory dir) (h : foundBelowAll d root rules dirs = .ok keys) :
    ∀ key ∈ keys, ∃ dir ∈ dirs, ∃ below e, below ≠ [] ∧ (∀ n ∈ below, Path.IsName n)
      ∧ reports rules ⟨.here, Path.namesIn dir⟩ below e = true
      ∧ key = keyOf (Path.namesIn dir ++ below) := by
  induction dirs generalizing keys with
  | nil =>
    obtain rfl := Except.ok.inj h
    simp
  | cons dir dirs ih =>
    obtain ⟨hdir, hdirs⟩ := List.forall_mem_cons.mp hdirs
    obtain ⟨-, hnames, -, hpath⟩ := namesIn_of_isDirectory hdir
    have hplace : root.join (.ofText dir) = root.descend (Path.namesIn dir) := by
      rw [hpath]
      rfl
    rw [foundBelowAll, hplace] at h
    split at h
    · simp at h
    rename_i found hfound
    rcases hrest : foundBelowAll d root rules dirs with c | more
    · simp [hrest, Except.map] at h
    rw [hrest] at h
    obtain rfl := Except.ok.inj h
    intro key hkey
    -- found below this directory, or below a later one
    rcases List.mem_append.mp hkey with hkey | hkey
    · exact ⟨dir, List.mem_cons_self, exists_of_foundBelow hd hnames hfound key hkey⟩
    · obtain ⟨dir', hdir', hexists⟩ := ih hdirs hrest key hkey
      exact ⟨dir', List.mem_cons_of_mem _ hdir', hexists⟩

/-- What is discovered has a key, whatever links there are. -/
theorem isKey_of_discover (hd : d.Legal) (hroot : root.Normal)
    (hroots : ∀ dir ∈ rules.roots, Settings.IsDirectory dir) (h : discover d p rules = .ok keys) :
    ∀ key ∈ keys, IsKey root rules key := by
  obtain ⟨absolute, habsolute, -⟩ := except_bind_ok_iff.mp h
  rw [discover_eq habsolute] at h
  rcases hfound : foundBelowAll d absolute rules rules.roots with c | found
  · simp [hfound, Except.map] at h
  rw [hfound] at h
  obtain rfl := Except.ok.inj h
  intro key hkey
  rw [mem_sorted, mem_distinct] at hkey
  obtain ⟨dir, hdir, below, e, hne, hbelow, hreports, rfl⟩ :=
    exists_of_foundBelowAll hd hroots hfound key hkey
  have hnames : ∀ n ∈ Path.namesIn dir ++ below, Path.IsName n :=
    List.forall_mem_append.mpr ⟨(namesIn_of_isDirectory (hroots dir hdir)).2.1, hbelow⟩
  have hpieces : ∀ n ∈ Path.namesIn dir ++ below, Path.IsPiece n := fun n hn => (hnames n hn).1
  obtain ⟨-, -, hsource⟩ := source_of_reports hroots hdir hne hpieces hreports
  exact ⟨hsource, _, by simp [hne], hpieces, (hroot.descend hnames).byName, rfl⟩

/-! ## Runs -/

/-- Known keys come from known ones, or are of some kind. -/
def KeysFrom (P : Text → Prop) (s s' : SourceSet) : Prop :=
  ∀ keys, s.files = some keys → ∃ keys', s'.files = some keys' ∧ ∀ key ∈ keys', key ∈ keys ∨ P key

variable {P : Text → Prop}

theorem finding_keysFrom (P : Text → Prop) : Finding (KeysFrom P) where
  stepwise := by
    refine ⟨fun s keys hkeys => ⟨keys, hkeys, fun key hkey => .inl hkey⟩, fun h h' keys hkeys => ?_⟩
    obtain ⟨keys', hkeys', hfrom⟩ := h keys hkeys
    obtain ⟨keys'', hkeys'', hfrom'⟩ := h' keys' hkeys'
    exact ⟨keys'', hkeys'', fun key hkey => (hfrom' key hkey).elim (hfrom key) .inr⟩
  found s keys hnone keys' hkeys' := by
    rw [hnone] at hkeys'
    exact nomatch hkeys'

theorem keysFrom_join (h : P key) (s : SourceSet) :
    KeysFrom P s { s with files := s.files.map (· ++ [key]) } := by
  intro keys hkeys
  refine ⟨keys ++ [key], by simp [hkeys], fun key' hkey' => ?_⟩
  rcases List.mem_append.mp hkey' with hkey' | hkey'
  · exact .inl hkey'
  · exact .inr (List.mem_singleton.mp hkey' ▸ h)

theorem keysFrom_files (P : Text → Prop) (h : s'.files = s.files) : KeysFrom P s s' :=
  fun keys hkeys => ⟨keys, h.trans hkeys, fun _ hkey => .inl hkey⟩

/-- The files that a request has join, if they do. -/
def Request.joins? : Request → Option TrackedFile
  | .add f | .track f => some f
  | _ => none

/-- What a request has join is of some kind, if what it joins is. -/
theorem keysFrom_perform (hr : r ≠ .reset) (hjoins : ∀ f, r.joins? = some f → P f.path) (d : Disk)
    (s : SourceSet) : KeysFrom P s (r.perform d s) := by
  have hR := finding_keysFrom P
  cases r with
  | list => exact hR.listed d s
  | tracks f => exact hR.tracks d f s
  | add f => exact hR.add (keysFrom_join (hjoins f rfl)) s
  | remove f =>
    refine hR.remove (fun s keys hkeys => ⟨keys.filter (· ≠ f.path), by simp [hkeys], ?_⟩) s
    exact fun key hkey => .inl (List.mem_filter.mp hkey).1
  | track f => exact hR.trackIfPresent (keysFrom_join (hjoins f rfl)) s
  | resolve raw => exact hR.stepwise.refl s
  | unit f =>
    exact hR.unitOf (fun s => keysFrom_files P rfl) (fun s _ _ _ _ _ _ _ => keysFrom_files P rfl) s
  | commit f text => exact hR.commit (fun s _ _ _ _ => keysFrom_files P rfl) s
  | reset => exact absurd rfl hr

theorem sameRules_perform (r : Request) (d : Disk) (s : SourceSet) : SameRules s (r.perform d s) := by
  cases r with
  | list => exact respects_listed d s
  | tracks f => exact tracking_sameRules.tracks d f s
  | add f => exact tracking_sameRules.add d f s
  | remove f => exact tracking_sameRules.remove (fun _ => ⟨rfl, rfl⟩) s
  | track f => exact respects_trackIfPresent d f s
  | resolve raw => exact ⟨rfl, rfl⟩
  | unit f => exact respects_unitOf d f s
  | commit f text => exact tracking_sameRules.commit (fun _ _ _ _ _ => ⟨rfl, rfl⟩) s
  | reset => exact ⟨rfl, rfl⟩

/-- Where the keys cannot be found, nothing comes of a request. -/
theorem perform_of_error {c : Cause} (h : s.keysOn d = .error c) (hr : r ≠ .reset) :
    r.perform d s = s := by
  have hknown : (known d).runOn s = (.error ⟨c, []⟩, s) := by rw [known_eq, h]
  cases r with
  | list => exact congrArg Prod.snd (runOn_bind_error hknown)
  | tracks f => exact congrArg Prod.snd (tracks_of_error h)
  | add f | remove f | track f | unit f | commit f text =>
    exact congrArg Prod.snd (runOn_bind_error (tracks_of_error h))
  | resolve raw => rfl
  | reset => exact absurd rfl hr

/-- Where they can be found, a request runs as it does where they are known. -/
theorem perform_of_keysOn (h : s.keysOn d = .ok keys) (hresolve : ∀ raw, r ≠ .resolve raw) :
    r.perform d s = r.perform d (s.knowing keys) := by
  have hknown : (known d).runOn s = (.ok keys, s.knowing keys) := by rw [known_eq, h]
  have hknown' : (known d).runOn (s.knowing keys) = (.ok keys, s.knowing keys) := by
    rw [known_eq, keysOn_of_files rfl]
    rfl
  cases r with
  | list =>
    unfold Request.perform SourceSet.listed
    dsimp only
    rw [runOn_bind_ok hknown, runOn_bind_ok hknown']
  | tracks f => exact congrArg Prod.snd ((tracks_of_keys h).trans (tracks_known rfl).symm)
  | add f | remove f | track f | unit f | commit f text =>
    exact congrArg Prod.snd (runOn_tracks_bind h)
  | resolve raw => exact absurd rfl (hresolve raw)
  | reset => rfl

/-- Whatever is tracked is a key. -/
def Identified (s : SourceSet) : Prop :=
  ∀ keys, s.files = some keys → ∀ key ∈ keys, IsKey s.root s.rules key

theorem Identified.keysOn (h : s.Identified) (hd : d.Legal) (hroot : s.root.Normal)
    (hroots : ∀ dir ∈ s.rules.roots, Settings.IsDirectory dir) (hkeys : s.keysOn d = .ok keys) :
    ∀ key ∈ keys, IsKey s.root s.rules key := by
  unfold SourceSet.keysOn at hkeys
  split at hkeys
  · rename_i known hknown
    obtain rfl := Except.ok.inj hkeys
    exact h _ hknown
  · exact isKey_of_discover hd hroot hroots hkeys

/-- A request leaves keys, if what it has join is one. -/
theorem Identified.perform (h : s.Identified) (hd : d.Legal) (hroot : s.root.Normal)
    (hroots : ∀ dir ∈ s.rules.roots, Settings.IsDirectory dir)
    (hjoins : ∀ f, r.joins? = some f → IsKey s.root s.rules f.path) :
    (r.perform d s).Identified := by
  obtain ⟨hroot', hrules'⟩ := sameRules_perform r d s
  intro keys' hkeys'
  rw [hroot', hrules']
  by_cases hresolve : ∃ raw, r = .resolve raw
  · obtain ⟨raw, rfl⟩ := hresolve
    exact h keys' hkeys'
  by_cases hreset : r = .reset
  · rw [hreset] at hkeys'
    exact nomatch hkeys'
  rcases hkeys : s.keysOn d with c | keys
  · rw [perform_of_error hkeys hreset] at hkeys'
    exact h keys' hkeys'
  · rw [perform_of_keysOn hkeys fun raw hraw => hresolve ⟨raw, hraw⟩] at hkeys'
    obtain ⟨known, hknown, hfrom⟩ := keysFrom_perform hreset hjoins d (s.knowing keys) keys rfl
    obtain rfl := Option.some.inj (hknown.symm.trans hkeys')
    exact fun key hkey => (hfrom key hkey).elim (h.keysOn hd hroot hroots hkeys key) id

/-- A run on legal disks, of requests that have only files join that spellings come to. -/
structure Resolved (root : Path) (rules : SourceSettings) (ms : List Moment) : Prop where
  legal : ∀ m ∈ ms, m.disk.Legal
  resolved : ∀ m ∈ ms, ∀ f, m.request.joins? = some f →
    ∃ raw, (fresh root rules).resolve? raw = some f

theorem sameRules_after (s : SourceSet) (ms : List Moment) : SameRules s (s.after ms) := by
  induction ms using List.reverseRecOn with
  | nil => exact ⟨rfl, rfl⟩
  | append_singleton ms m ih =>
    rw [after_concat]
    exact stepwise_sameRules.trans ih (sameRules_perform m.request m.disk _)

/-- Whatever is tracked after such a run is a key. -/
theorem identified_after (hroot : root.Normal) (hroots : ∀ dir ∈ rules.roots, Settings.IsDirectory dir)
    (h : Resolved root rules ms) : ((fresh root rules).after ms).Identified := by
  induction ms using List.reverseRecOn with
  | nil => exact fun keys hkeys => nomatch hkeys
  | append_singleton ms m ih =>
    have hbefore := ih ⟨fun m' hm' => h.legal m' (List.mem_append_left _ hm'),
      fun m' hm' => h.resolved m' (List.mem_append_left _ hm')⟩
    obtain ⟨hroot', hrules'⟩ := sameRules_after (fresh root rules) ms
    rw [after_concat]
    refine hbefore.perform (h.legal m (by simp)) (hroot' ▸ hroot) (hrules' ▸ hroots) fun f hf => ?_
    obtain ⟨raw, hraw⟩ := h.resolved m (by simp) f hf
    rw [hroot', hrules']
    exact isKey_of_resolve? hroot hroots hraw

/-! ## Identity -/

variable {files : List TrackedFile}

/-- A location counts as affected by the file it is of exactly if it comes to that file. -/
theorem anyAffected_self_iff (s : SourceSet) (key : Text) :
    Update.anyAffected s [key] [(s.trackedFile key).location] = .ok true
      ↔ s.resolve? (s.trackedFile key).location.text = some (s.trackedFile key) := by
  rw [Update.anyAffected_cons]
  rcases hresolve : s.resolve? (s.trackedFile key).location.text with _ | g
  · simp
  · obtain ⟨hself, -⟩ := trackedFile_of_resolve? hresolve
    have hnone : Update.anyAffected s [key] [] = .ok false := rfl
    have hsame : g = s.trackedFile key ↔ g.path = key :=
      ⟨fun h => congrArg TrackedFile.path h, fun h => hself.trans (congrArg s.trackedFile h)⟩
    dsimp only
    rw [hnone, Option.some_inj, hsame]
    by_cases hk : g.path = key
    · simp [hk]
    · simp [hk]

/-- For all settings that are accepted, all legal disks and every run that has only files join that
spellings come to: a file that is listed is found again by its key exactly if the key has no backslash,
and by its location, also where an update looks for affected files, exactly if the location has none.
Two listed files without backslashes do not come to one file. -/
theorem listed_resolves_iff {base : Path} {file : Fields} {o : Overrides} {settings : Settings}
    (hmerge : Settings.merge (.default base) file o = .ok settings) (hroot : root.Straight)
    (hms : Resolved root settings.sources ms) (hd : d.Legal)
    (hlisted : (listed d).runOn ((fresh root settings.sources).after ms) = (.ok files, s')) :
    ∀ f ∈ files, (s'.resolve? f.path = some f ↔ '\\' ∉ f.path)
      ∧ (s'.resolve? f.location.text = some f ↔ '\\' ∉ f.location.text)
      ∧ (Update.anyAffected s' [f.path] [f.location] = .ok true ↔ '\\' ∉ f.location.text)
      ∧ ∀ g ∈ files, '\\' ∉ f.location.text → '\\' ∉ g.location.text →
        s'.resolve? f.location.text = s'.resolve? g.location.text → f = g := by
  have hroots := Settings.merge_roots hmerge
  -- listing is one request more
  have hidentified : s'.Identified := by
    have hbefore := identified_after hroot.normal hroots hms
    obtain ⟨hroot', hrules'⟩ := sameRules_after (fresh root settings.sources) ms
    have hs' : s' = Request.list.perform d ((fresh root settings.sources).after ms) :=
      (congrArg Prod.snd hlisted).symm
    rw [hs']
    exact hbefore.perform hd (hroot' ▸ hroot.normal) (hrules' ▸ hroots) fun f hf => nomatch hf
  obtain ⟨hroot', hrules'⟩ := stepwise_sameRules.trans (sameRules_after (fresh root settings.sources) ms)
    (hlisted ▸ respects_listed d ((fresh root settings.sources).after ms))
  have hnormal : s'.root.Normal := hroot' ▸ hroot.normal
  obtain ⟨keys, hkeys, hfiles⟩ := listed_ok hlisted
  have hlocation : ∀ f ∈ files, s'.resolve? f.location.text = some f ↔ '\\' ∉ f.location.text := by
    intro f hf
    obtain ⟨hself, hkey⟩ := hfiles f hf
    rw [hself]
    exact resolve?_location_iff hnormal (hidentified keys hkeys f.path hkey)
  intro f hf
  obtain ⟨hself, hkey⟩ := hfiles f hf
  refine ⟨?_, hlocation f hf, ?_, fun g hg hfb hgb heq => ?_⟩
  · rw [hself]
    exact resolve?_path_iff hnormal (hidentified keys hkeys f.path hkey)
  · rw [← hlocation f hf, hself]
    exact anyAffected_self_iff s' f.path
  · rw [(hlocation f hf).mpr hfb, (hlocation g hg).mpr hgb] at heq
    exact Option.some.inj heq

/-- The project with one source: it is tracked, forgotten, and found again. -/
theorem listed_resolves_small :
    let d := onlyDisk "class A\n".toList 1
    let s := (fresh onlyRoot (Settings.default onlyRoot).sources).after [⟨d, .track onlyFile⟩, ⟨d, .reset⟩]
    ∃ s', (listed d).runOn s = (.ok [onlyFile], s') ∧ s'.resolve? onlyFile.path = some onlyFile
      ∧ s'.resolve? onlyFile.location.text = some onlyFile
      ∧ Update.anyAffected s' [onlyFile.path] [onlyFile.location] = .ok true := by
  intro d s
  have ht : d.tree.Legal := Tree.legal_of_check (by decide +kernel) (by decide +kernel)
  have hd : d.Legal := ⟨ht, by simp [d, onlyDisk], fun _ => ht.isDirectory_nil⟩
  have hmerge : Settings.merge (.default onlyRoot) [] .none = .ok (.default onlyRoot) := by
    decide +kernel
  have hresolve : (fresh onlyRoot (Settings.default onlyRoot).sources).resolve? "src/A.kt".toList
      = some onlyFile := by decide +kernel
  have hms : Resolved onlyRoot (Settings.default onlyRoot).sources [⟨d, .track onlyFile⟩, ⟨d, .reset⟩] := by
    refine ⟨List.forall_mem_cons.mpr ⟨hd, List.forall_mem_singleton.mpr hd⟩,
      fun m hm f hf => ⟨"src/A.kt".toList, ?_⟩⟩
    rcases List.mem_cons.mp hm with rfl | hm
    · exact hresolve.trans hf
    · obtain rfl := List.mem_singleton.mp hm
      exact nomatch hf
  have hfiles : ((listed d).runOn s).1 = .ok [onlyFile] := by decide +kernel
  have hlisted : (listed d).runOn s = (.ok [onlyFile], ((listed d).runOn s).2) := by rw [← hfiles]
  obtain ⟨hpath, hlocation, haffected, -⟩ := listed_resolves_iff hmerge ⟨rfl, by decide⟩ hms hd hlisted
    onlyFile List.mem_cons_self
  exact ⟨_, hlisted, hpath.mpr (by decide +kernel), hlocation.mpr (by decide +kernel),
    haffected.mpr (by decide +kernel)⟩

/-- A disk with a source that has a backslash in its name. -/
def backslashDisk : Disk :=
  ⟨.ofEntries [(["p".toList], .directory 0), (["p".toList, "src".toList], .directory 0),
    (["p".toList, "src".toList, "a\\b.kt".toList], .file [] 0)], [], false⟩

/-- The source is listed. Its key and its location come to another file, which is not there, and where
an update looks for it, it is not found affected. -/
theorem not_resolved_with_backslash :
    ∃ f s', (listed backslashDisk).runOn (fresh onlyRoot (Settings.default onlyRoot).sources)
        = (.ok [f], s')
      ∧ s'.resolve? f.path = some (s'.trackedFile "src/a/b.kt".toList)
      ∧ s'.resolve? f.location.text = some (s'.trackedFile "src/a/b.kt".toList)
      ∧ s'.trackedFile "src/a/b.kt".toList ≠ f
      ∧ Update.anyAffected s' [f.path] [f.location] = .ok false := by
  have hfiles : ((listed backslashDisk).runOn (fresh onlyRoot (Settings.default onlyRoot).sources)).1
      = .ok [⟨"src/a\\b.kt".toList, onlyRoot.descend ["src".toList, "a\\b.kt".toList]⟩] := by decide +kernel
  refine ⟨⟨"src/a\\b.kt".toList, onlyRoot.descend ["src".toList, "a\\b.kt".toList]⟩, _,
    (by rw [← hfiles]), ?_⟩
  decide +kernel

end Provenance.SourceSet
