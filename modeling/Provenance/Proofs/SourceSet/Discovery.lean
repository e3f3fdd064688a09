/-
Discovery and the test for sources.

There are two ways to tell the sources of a project: to search the source directories, and
to look at a key. On a disk without links that can be read the two should agree, and almost
do. The search finds each regular file that is a source by its key, provided that it comes
to it, and it passes over directories that a pattern excludes with all that is in them. It
goes by the names of the directories, which it takes out of the patterns without the slashes
around them; so a pattern with a slash too many excludes nothing, and still has directories
passed over if another pattern excludes them and not what is in them.

`discover_agrees_iff` tells when the two agree, and that they do if no pattern has a slash too many
and every source directory can be asked for.
-/
import Provenance.Proofs.SourceSet.Requests
import Provenance.Proofs.Glob
import Provenance.Proofs.Settings
import Provenance.Proofs.Disk.Plain

set_option autoImplicit false

namespace Provenance

/-! ## Disks that can be read -/

/-- Everything below a path is found under its own path. -/
def Disk.Readable (d : Disk) (root : Path) : Prop :=
  ∀ names e, d.tree.find? (root.names ++ names) = some e →
    d.stat (root.descend names) = .ok (root.names ++ names, e)

/-- It is enough that every entry of the disk is found under its own path. -/
theorem Disk.readable_of_entries {d : Disk} {root : Path} (ht : d.tree.AllLegal)
    (hroot : root.anchor = .root)
    (hcheck : ∀ le ∈ d.tree.entries, d.stat ⟨.root, le.1⟩ = .ok le) : d.Readable root := by
  intro names e he
  rw [Path.descend, hroot]
  exact hcheck (root.names ++ names, e) (ht.mem_entries.mpr he)

/-- So a directory is there, above everything that is. -/
theorem Disk.Readable.stat_above {d : Disk} {root : Path} (hread : d.Readable root) (hd : d.Legal)
    {names below : List Text} {e : Entry} (hbelow : below ≠ [])
    (he : d.tree.find? (root.names ++ (names ++ below)) = some e) :
    ∃ time, d.stat (root.descend names) = .ok (root.names ++ names, .directory time) := by
  rw [← List.append_assoc] at he
  have hdir := hd.tree.isDirectory_of_below hbelow (Option.isSome_iff_exists.mpr ⟨e, he⟩)
  obtain ⟨time, hfind⟩ := Tree.isDirectory_iff.mp hdir
  exact ⟨time, hread names (.directory time) hfind⟩

namespace SourceSet

variable {d : Disk} {p root : Path} {rules : SourceSettings} {names dir below : List Text}
  {key : Text} {e : Entry}

/-! ## On the way to a source -/

/-- The text of a list of names. -/
abbrev keyOf (names : List Text) : Text := Text.join ['/'] names

theorem mem_properStarts_iff {above : List Text} : above ∈ properStarts names
    ↔ above ≠ [] ∧ ∃ rest, rest ≠ [] ∧ names = above ++ rest := by
  induction names generalizing above with
  | nil => simp [properStarts]
  | cons n names ih =>
    cases names with
    | nil =>
      simp only [properStarts, List.not_mem_nil, false_iff, not_and, not_exists]
      intro hne rest hrest heq
      have hlength := congrArg List.length heq
      have habove := List.length_pos_of_ne_nil hne
      have hrest := List.length_pos_of_ne_nil hrest
      simp only [List.length_cons, List.length_nil, List.length_append] at hlength
      omega
    | cons m rest =>
      show above ∈ [n] :: (properStarts (m :: rest)).map (n :: ·) ↔ _
      rw [List.mem_cons, List.mem_map]
      constructor
      · rintro (rfl | ⟨above, habove, rfl⟩)
        · exact ⟨by simp, m :: rest, by simp, rfl⟩
        · obtain ⟨-, rest', hne, heq⟩ := ih.mp habove
          exact ⟨by simp, rest', hne, by rw [heq, List.cons_append]⟩
      · rintro ⟨hne, rest', hrest, heq⟩
        obtain ⟨k, above, rfl⟩ := List.exists_cons_of_ne_nil hne
        obtain ⟨rfl, htail⟩ := List.cons.inj heq
        cases above with
        | nil => exact .inl rfl
        | cons k above => exact .inr ⟨k :: above, ih.mpr ⟨by simp, rest', hrest, htail⟩, rfl⟩

/-- A search of the source directories comes to some names below the root: for one of the directories
that they are in, it enters all directories from there to them. -/
def Reached (rules : SourceSettings) (names : List Text) : Prop :=
  ∃ dir ∈ rules.roots, ∃ below, below ≠ [] ∧ names = Path.namesIn dir ++ below
    ∧ enters rules (.ofText dir) below = true

/-! ## Patterns of directories -/

/-- A pattern that excludes whole directories has no more slashes than it needs. -/
def Neat (pattern : Text) : Prop :=
  ∀ name ∈ SourceSettings.prunedName? pattern, pattern = "**/".toList ++ name ++ "/**".toList

instance (pattern : Text) : Decidable (Neat pattern) := inferInstanceAs (Decidable (∀ _ ∈ _, _))

/-- The name of a directory that a pattern excludes is plain. -/
theorem isPlain_of_prunedName? {pattern name : Text}
    (h : SourceSettings.prunedName? pattern = some name) : ∀ c ∈ name, Glob.IsPlain c := by
  unfold SourceSettings.prunedName? at h
  split at h
  · dsimp only at h
    split at h
    · simp at h
    · rename_i hmarks
      obtain rfl := Option.some.inj h
      intro c hc
      simp only [Bool.or_eq_true, List.any_eq_true, not_or, not_exists, not_and] at hmarks
      have hmark := hmarks.2 c hc
      refine ⟨?_, ?_, ?_⟩ <;> rintro rfl <;> exact hmark (by decide)
  · simp at h

/-- A neat pattern excludes all that is in the directories that it excludes. -/
theorem excluded_of_prunedName (hneat : ∀ pattern ∈ rules.excludes, Neat pattern) {name : Text}
    (hname : name ∈ rules.prunedNames) {above rest : List Text} (habove : above ≠ [])
    (hrest : rest ≠ []) : rules.excluded (keyOf (above ++ name :: rest)) = true := by
  obtain ⟨pattern, hmem, hpruned⟩ := List.mem_filterMap.mp hname
  have hplain : ∀ c ∈ '/' :: (name ++ ['/']), Glob.IsPlain c := by
    intro c hc
    rw [List.mem_cons, List.mem_append, List.mem_singleton] at hc
    rcases hc with rfl | hc | rfl
    · decide
    · exact isPlain_of_prunedName? hpruned c hc
    · decide
  have hmatch := Glob.globMatch_between hplain (by simp) ('/' :: keyOf above) (keyOf rest)
  have hpattern : pattern = "**".toList ++ '/' :: (name ++ ['/']) ++ "**".toList := by
    rw [hneat pattern hmem name hpruned]
    simp
  have hkey : '/' :: keyOf (above ++ name :: rest)
      = '/' :: keyOf above ++ '/' :: (name ++ ['/']) ++ keyOf rest := by
    rw [keyOf, Text.join_append ['/'] habove (List.cons_ne_nil name rest),
      ← List.singleton_append (x := name), Text.join_append ['/'] (List.cons_ne_nil name []) hrest]
    simp
  rw [← hpattern, ← hkey] at hmatch
  exact List.any_eq_true.mpr ⟨pattern, hmem, by rw [hmatch, Bool.or_true]⟩

/-! ## Keys of sources -/

/-- The names of a directory in the settings. -/
theorem namesIn_of_isDirectory {dir : Text} (h : Settings.IsDirectory dir) :
    Path.namesIn dir ≠ [] ∧ (∀ n ∈ Path.namesIn dir, Path.IsName n)
      ∧ dir = keyOf (Path.namesIn dir) ∧ Path.ofText dir = ⟨.here, Path.namesIn dir⟩ := by
  obtain ⟨names, hne, hn, rfl⟩ := h
  have hpieces : ∀ n ∈ names, Path.IsPiece n := fun n hmem => (hn n hmem).1
  rw [Path.namesIn_join hpieces, Path.ofText_join hpieces]
  exact ⟨hne, hn, rfl, rfl⟩

/-- A key is that of a source if its suffix is, it is not excluded, and its names go on from those of a
source directory. -/
theorem isSource_iff (hroots : ∀ dir ∈ rules.roots, Settings.IsDirectory dir)
    (hn : ∀ n ∈ names, Path.IsPiece n) :
    rules.isSource (keyOf names) = true
      ↔ rules.hasSourceSuffix (keyOf names) = true ∧ rules.excluded (keyOf names) = false
        ∧ ∃ dir ∈ rules.roots, ∃ below, below ≠ [] ∧ names = Path.namesIn dir ++ below := by
  rw [SourceSettings.isSource, Bool.and_eq_true, Bool.and_eq_true, Bool.not_eq_true',
    List.any_eq_true, and_assoc]
  refine and_congr_right fun _ => and_congr_right fun _ => exists_congr fun dir =>
    and_congr_right fun hdir => ?_
  obtain ⟨hne, hnames, htext, -⟩ := namesIn_of_isDirectory (hroots dir hdir)
  have hstarts := Path.startsWith_join_iff hn (fun n hmem => (hnames n hmem).1) hne
  rwa [← keyOf, ← keyOf, ← htext] at hstarts

/-- If all patterns are neat, a search comes to every source. -/
theorem reached_of_neat (hroots : ∀ dir ∈ rules.roots, Settings.IsDirectory dir)
    (hneat : ∀ pattern ∈ rules.excludes, Neat pattern) (hn : ∀ n ∈ names, Path.IsPiece n)
    (hsource : rules.isSource (keyOf names) = true) : Reached rules names := by
  obtain ⟨-, hnot, dir, hdir, below, hbelow, rfl⟩ := (isSource_iff hroots hn).mp hsource
  refine ⟨dir, hdir, below, hbelow, rfl, List.all_eq_true.mpr fun above habove => ?_⟩
  obtain ⟨hne, rest, hrest, rfl⟩ := mem_properStarts_iff.mp habove
  obtain ⟨init, name, habove⟩ := (List.eq_nil_or_concat above).resolve_left hne
  rw [List.concat_eq_append] at habove
  subst habove
  rw [List.getLastD_concat, Bool.not_eq_true', Bool.eq_false_iff]
  intro hprunes
  obtain ⟨hname, -⟩ := Bool.and_eq_true_iff.mp hprunes
  -- a directory on the way is excluded, and so is the source in it
  have habove : Path.namesIn dir ++ init ≠ [] := by
    simp [(namesIn_of_isDirectory (hroots dir hdir)).1]
  have hexcluded := excluded_of_prunedName hneat (List.contains_iff_mem.mp hname) habove hrest
  rw [List.append_assoc, List.singleton_append, ← List.append_assoc, hexcluded] at hnot
  exact Bool.noConfusion hnot

/-! ## Searches -/

/-- What a search of a source directory finds below it. -/
def FoundIn (d : Disk) (root : Path) (rules : SourceSettings) (dir : List Text) (key : Text) : Prop :=
  ∃ below e, below ≠ [] ∧ d.tree.find? (root.names ++ (dir ++ below)) = some e
    ∧ reports rules ⟨.here, dir⟩ below e = true ∧ key = keyOf (dir ++ below)

/-- What there is below a source directory, as a search lists it. -/
theorem mem_listed_iff (hd : d.Legal) (hread : d.Readable root) (dir below : List Text) (e : Entry) :
    (below, e) ∈ (d.tree.inside (root.names ++ dir)).filter
        (fun ne => !Disk.isOverlong ((root.descend dir).descend ne.1.dropLast))
      ↔ below ≠ [] ∧ d.tree.find? (root.names ++ (dir ++ below)) = some e := by
  rw [List.mem_filter, hd.tree.nodes.mem_inside, List.append_assoc]
  refine and_iff_left_of_imp ?_
  rintro ⟨hne, he⟩
  obtain ⟨above, n, hbelow⟩ := (List.eq_nil_or_concat below).resolve_left hne
  rw [List.concat_eq_append] at hbelow
  subst hbelow
  rw [← List.append_assoc dir above] at he
  obtain ⟨time, hstat⟩ := hread.stat_above hd (List.cons_ne_nil n []) he
  dsimp only
  rw [List.dropLast_concat, Path.descend_descend, Disk.not_overlong_of_stat hstat]
  rfl

/-- On a disk without links a directory that is asked for is at its names. -/
theorem stat_of_hasDirectory (hfree : d.tree.LinkFree) (hp : p.Straight)
    (h : d.hasDirectory p = .ok true) : ∃ e, d.stat p = .ok (p.names, e) := by
  obtain ⟨x, e, hstat, -⟩ := Disk.holds_true_iff.mp h
  obtain ⟨rfl, -⟩ := Disk.stat_plain hfree hp hstat
  exact ⟨e, hstat⟩

/-- What is below the root is at pieces of paths. -/
theorem isPiece_of_find? (hd : d.Legal) (he : d.tree.find? (root.names ++ names) = some e) :
    ∀ n ∈ names, Path.IsPiece n := fun n hn =>
  (hd.tree.nodes.isName (Option.isSome_iff_exists.mpr ⟨e, he⟩) n (List.mem_append_right _ hn)).1

/-- The text of the path of what is below a source directory, as it is seen from the root. -/
theorem text_of_below (hd : d.Legal) (hbelow : below ≠ [])
    (he : d.tree.find? (root.names ++ (dir ++ below)) = some e) :
    (Path.descend ⟨.here, dir⟩ below).text = keyOf (dir ++ below) :=
  Path.text_here (by simp [hbelow]) (isPiece_of_find? hd he)

/-- A source directory that can be asked for is searched, on a disk without links that can be read. -/
theorem foundBelow_ok (hd : d.Legal) (hfree : d.tree.LinkFree) (hroot : root.Straight)
    (hread : d.Readable root) (hdir : ∀ n ∈ dir, Path.IsName n)
    (hasked : ∀ er, d.hasDirectory (root.descend dir) ≠ .error er) :
    ∃ keys, foundBelow d root rules (root.descend dir) = .ok keys
      ∧ ∀ key, key ∈ keys ↔ FoundIn d root rules dir key := by
  unfold foundBelow
  rcases hthere : d.hasDirectory (root.descend dir) with er | _ | _
  · exact absurd hthere (hasked er)
  · -- nothing is below what is no directory
    refine ⟨[], rfl, fun key => iff_of_false List.not_mem_nil ?_⟩
    rintro ⟨below, e, hbelow, he, -⟩
    obtain ⟨time, hstat⟩ := hread.stat_above hd hbelow he
    rw [Disk.hasDirectory, Disk.holds_of_stat _ hstat] at hthere
    exact Bool.noConfusion (Except.ok.inj hthere)
  · obtain ⟨e, hstat⟩ := stat_of_hasDirectory hfree (hroot.descend hdir) hthere
    rw [hstat]
    dsimp only
    have hlisted := mem_listed_iff hd hread dir
    rw [show (root.descend dir).names = root.names ++ dir from rfl, Path.relativeTo?_descend]
    generalize (d.tree.inside (root.names ++ dir)).filter _ = listed at hlisted ⊢
    refine ⟨(listed.filter fun ne => reports rules ⟨.here, dir⟩ ne.1 ne.2).map fun ne =>
      (Path.descend ⟨.here, dir⟩ ne.1).text, ?_, fun key => ?_⟩
    · cases listed <;> rfl
    · simp only [List.mem_map, List.mem_filter, Prod.exists, hlisted]
      constructor
      · rintro ⟨below, e, ⟨⟨hbelow, he⟩, hreports⟩, rfl⟩
        exact ⟨below, e, hbelow, he, hreports, text_of_below hd hbelow he⟩
      · rintro ⟨below, e, hbelow, he, hreports, rfl⟩
        exact ⟨below, e, ⟨⟨hbelow, he⟩, hreports⟩, text_of_below hd hbelow he⟩

/-- A source directory of which it cannot be asked whether it is there ends the search. -/
theorem foundBelow_error {er : Errno} (h : d.hasDirectory p = .error er) :
    foundBelow d root rules p = .error (.io (.ofErrno er p)) := by
  rw [foundBelow, h]

/-- All source directories are searched if all can be asked for. -/
theorem foundBelowAll_ok (hd : d.Legal) (hfree : d.tree.LinkFree) (hroot : root.Straight)
    (hread : d.Readable root) {dirs : List Text} (hdirs : ∀ dir ∈ dirs, Settings.IsDirectory dir)
    (hasked : ∀ dir ∈ dirs, ∀ er, d.hasDirectory (root.join (.ofText dir)) ≠ .error er) :
    ∃ keys, foundBelowAll d root rules dirs = .ok keys
      ∧ ∀ key, key ∈ keys ↔ ∃ dir ∈ dirs, FoundIn d root rules (Path.namesIn dir) key := by
  induction dirs with
  | nil => exact ⟨[], rfl, by simp⟩
  | cons dir dirs ih =>
    obtain ⟨hdir, hdirs⟩ := List.forall_mem_cons.mp hdirs
    obtain ⟨hasked, hrest⟩ := List.forall_mem_cons.mp hasked
    obtain ⟨-, hnames, -, hpath⟩ := namesIn_of_isDirectory hdir
    have hplace : root.join (.ofText dir) = root.descend (Path.namesIn dir) := by
      rw [hpath]
      rfl
    rw [hplace] at hasked
    obtain ⟨keys, hkeys, hmem⟩ : ∃ keys, foundBelow d root rules (root.descend (Path.namesIn dir))
        = .ok keys ∧ ∀ key, key ∈ keys ↔ FoundIn d root rules (Path.namesIn dir) key :=
      foundBelow_ok hd hfree hroot hread hnames hasked
    obtain ⟨more, hmore, hmem'⟩ := ih hdirs hrest
    refine ⟨keys ++ more, ?_, fun key => ?_⟩
    · rw [foundBelowAll, hplace, hkeys, hmore]
      rfl
    · rw [List.mem_append, hmem, hmem', List.exists_mem_cons_iff]

/-- A search of all source directories that comes to an end could ask for all of them. -/
theorem asked_of_foundBelowAll {dirs keys : List Text} (h : foundBelowAll d root rules dirs = .ok keys) :
    ∀ dir ∈ dirs, ∀ er, d.hasDirectory (root.join (.ofText dir)) ≠ .error er := by
  induction dirs generalizing keys with
  | nil => simp
  | cons dir dirs ih =>
    rw [foundBelowAll] at h
    split at h
    · simp at h
    rename_i found hfound
    rcases hrest : foundBelowAll d root rules dirs with c | more
    · simp [hrest, Except.map] at h
    refine List.forall_mem_cons.mpr ⟨fun er her => ?_, ih hrest⟩
    simp [foundBelow_error her] at hfound

/-! ## Discovery -/

/-- A regular file below the root of a project, told by its names, that is a source by its key. -/
structure HasSource (d : Disk) (root : Path) (rules : SourceSettings) (names : List Text) : Prop where
  file : ∃ e, d.tree.find? (root.names ++ names) = some e ∧ e.isFile = true
  source : rules.isSource (keyOf names) = true

theorem HasSource.isPiece (h : HasSource d root rules names) (hd : d.Legal) :
    ∀ n ∈ names, Path.IsPiece n := by
  obtain ⟨e, he, -⟩ := h.file
  exact isPiece_of_find? hd he

/-- What a search of a source directory reports is a regular file, and a source by its key. -/
theorem source_of_reports (hroots : ∀ dir ∈ rules.roots, Settings.IsDirectory dir) {dir : Text}
    (hdir : dir ∈ rules.roots) (hbelow : below ≠ [])
    (hpieces : ∀ n ∈ Path.namesIn dir ++ below, Path.IsPiece n)
    (h : reports rules ⟨.here, Path.namesIn dir⟩ below e = true) :
    e.isFile = true ∧ enters rules ⟨.here, Path.namesIn dir⟩ below = true
      ∧ rules.isSource (keyOf (Path.namesIn dir ++ below)) = true := by
  have htext : (Path.descend ⟨.here, Path.namesIn dir⟩ below).text = keyOf (Path.namesIn dir ++ below) :=
    Path.text_here (by simp [hbelow]) hpieces
  unfold reports at h
  rw [htext] at h
  simp only [Bool.and_eq_true, Bool.not_eq_true'] at h
  obtain ⟨⟨⟨hfile, henters⟩, hnot⟩, hsuffix⟩ := h
  exact ⟨hfile, henters, (isSource_iff hroots hpieces).mpr
    ⟨hsuffix, hnot, dir, hdir, below, hbelow, rfl⟩⟩

/-- The source directories hold the sources that a search of them comes to. -/
theorem found_iff (hd : d.Legal) (hroots : ∀ dir ∈ rules.roots, Settings.IsDirectory dir) :
    (∃ dir ∈ rules.roots, FoundIn d root rules (Path.namesIn dir) key)
      ↔ ∃ names, HasSource d root rules names ∧ Reached rules names ∧ key = keyOf names := by
  constructor
  · rintro ⟨dir, hdir, below, e, hbelow, he, hreports, rfl⟩
    have hpath := (namesIn_of_isDirectory (hroots dir hdir)).2.2.2
    obtain ⟨hfile, henters, hsource⟩ :=
      source_of_reports hroots hdir hbelow (isPiece_of_find? hd he) hreports
    exact ⟨_, ⟨⟨e, he, hfile⟩, hsource⟩, ⟨dir, hdir, below, hbelow, rfl, hpath ▸ henters⟩, rfl⟩
  · rintro ⟨names, hsource, ⟨dir, hdir, below, hbelow, rfl, henters⟩, rfl⟩
    have hpath := (namesIn_of_isDirectory (hroots dir hdir)).2.2.2
    obtain ⟨hsuffix, hnot, -⟩ := (isSource_iff hroots (hsource.isPiece hd)).mp hsource.source
    obtain ⟨e, he, hfile⟩ := hsource.file
    refine ⟨dir, hdir, below, e, hbelow, he, ?_, rfl⟩
    unfold reports
    rw [text_of_below hd hbelow he]
    rw [hpath] at henters
    simp [hfile, henters, hnot, hsuffix]

/-- Discovery sorts what is found from the absolute form of the root. -/
theorem discover_eq (habsolute : d.absolute p = .ok root) :
    discover d p rules
      = (foundBelowAll d root rules rules.roots).map fun keys => sorted (distinct keys) := by
  rw [discover, habsolute]
  rfl

/-- No key is discovered twice. -/
theorem nodup_discover {keys : List Text} (h : discover d p rules = .ok keys) : keys.Nodup := by
  unfold discover at h
  obtain ⟨root, -, h⟩ := Action.except_bind_ok_iff.mp h
  obtain ⟨found, -, h⟩ := Action.except_bind_ok_iff.mp h
  obtain rfl := Except.ok.inj h
  exact (perm_sortBy compare _).nodup_iff.mpr (nodup_distinct found)

/-- Discovery gives the keys of the sources that a search comes to, in strict order. -/
theorem discover_ok (hd : d.Legal) (hfree : d.tree.LinkFree) (hroot : root.Straight)
    (habsolute : d.absolute p = .ok root) (hread : d.Readable root)
    (hroots : ∀ dir ∈ rules.roots, Settings.IsDirectory dir)
    (hasked : ∀ dir ∈ rules.roots, ∀ er, d.hasDirectory (root.join (.ofText dir)) ≠ .error er) :
    ∃ keys, discover d p rules = .ok keys ∧ keys.Pairwise (compare · · = .lt)
      ∧ ∀ key, key ∈ keys
        ↔ ∃ names, HasSource d root rules names ∧ Reached rules names ∧ key = keyOf names := by
  obtain ⟨keys, hkeys, hmem⟩ := foundBelowAll_ok hd hfree hroot hread hroots hasked
  refine ⟨sorted (distinct keys), ?_, pairwise_lt_sorted (nodup_distinct keys), fun key => ?_⟩
  · rw [discover_eq habsolute, hkeys]
    rfl
  · rw [mem_sorted, mem_distinct, hmem, found_iff hd hroots]

/-- Discovery that succeeds could ask for all source directories. -/
theorem asked_of_discover {keys : List Text} (habsolute : d.absolute p = .ok root)
    (h : discover d p rules = .ok keys) :
    ∀ dir ∈ rules.roots, ∀ er, d.hasDirectory (root.join (.ofText dir)) ≠ .error er := by
  rw [discover_eq habsolute] at h
  rcases hfound : foundBelowAll d root rules rules.roots with c | found
  · simp [hfound, Except.map] at h
  · exact asked_of_foundBelowAll hfound

/-! ## Joining -/

/-- The key of the root itself is not that of a source. -/
theorem not_isSource_dot (hroots : ∀ dir ∈ rules.roots, Settings.IsDirectory dir) :
    rules.isSource ['.'] = false := by
  rw [← Bool.not_eq_true]
  intro hsource
  obtain ⟨-, hstarts⟩ := Bool.and_eq_true_iff.mp hsource
  obtain ⟨dir, hdir, hprefix⟩ := List.any_eq_true.mp hstarts
  -- the text of a source directory and a slash are at least two characters
  have hlength := (List.isPrefixOf_iff_prefix.mp hprefix).length_le
  obtain ⟨names, hne, hn, rfl⟩ := hroots dir hdir
  have hpos := List.length_pos_of_ne_nil (Path.join_ne_nil hne fun n hmem => (hn n hmem).1)
  simp only [List.length_append, List.length_cons, List.length_nil] at hlength
  omega

/-- A regular file is at a straight path below the root exactly if it is at the names of it. -/
theorem hasFile_descend_iff (hfree : d.tree.LinkFree) (hread : d.Readable root)
    (hstraight : (root.descend names).Straight) :
    d.hasFile (root.descend names) = .ok true
      ↔ ∃ e, d.tree.find? (root.names ++ names) = some e ∧ e.isFile = true := by
  rw [Disk.hasFile, Disk.holds_true_iff]
  constructor
  · rintro ⟨x, e, hstat, hfile⟩
    exact ⟨e, (Disk.stat_plain hfree hstraight hstat).2, hfile⟩
  · rintro ⟨e, he, hfile⟩
    exact ⟨_, e, hread names e he, hfile⟩

/-- A file joins a set that does not track it exactly if it is a source that is there. -/
theorem trackIfPresent_iff (hd : d.Legal) (hfree : d.tree.LinkFree) (hread : d.Readable root)
    (hroots : ∀ dir ∈ rules.roots, Settings.IsDirectory dir) {s : SourceSet} {tracked : List Text}
    {f : TrackedFile} (hrules : s.rules = rules) (hkeys : s.keysOn d = .ok tracked)
    (hf : f.path ∉ tracked) (hstraight : f.location.Straight)
    (hkey : f.location.key root = .ok f.path) :
    ((trackIfPresent d f).runOn s).1 = .ok true
      ↔ ∃ names, HasSource d root rules names ∧ f.path = keyOf names := by
  obtain ⟨names, hplace, htext⟩ := Path.descend_of_key hkey
  rw [hplace] at hstraight
  have hjoins : ((trackIfPresent d f).runOn s).1 = .ok true
      ↔ rules.isSource f.path = true ∧ d.hasFile f.location = .ok true := by
    have hrun : (trackIfPresent d f).runOn s = (trackIfPresent d f).runOn (s.knowing tracked) :=
      runOn_tracks_bind hkeys
    have hrules' : (s.knowing tracked).rules = rules := hrules
    rw [hrun, trackIfPresent_known rfl, if_neg (by simpa using hf), hrules']
    rcases rules.isSource f.path with _ | _
    · simp
    · rcases d.hasFile f.location with er | _ | _ <;> simp
  rw [hjoins, hplace, hasFile_descend_iff hfree hread hstraight]
  by_cases hne : names = []
  · -- the root itself is no source
    have hdot : f.path = ['.'] := by rw [htext, hne]; rfl
    rw [hdot, not_isSource_dot hroots]
    refine iff_of_false (by simp) ?_
    rintro ⟨names', hsource, hnames'⟩
    have hnot := not_isSource_dot hroots
    rw [hnames', hsource.source] at hnot
    exact Bool.noConfusion hnot
  have hpieces : ∀ n ∈ names, Path.IsPiece n := fun n hn =>
    hstraight.pieces n (List.mem_append_right _ hn)
  have hpath : f.path = keyOf names := htext.trans (Path.text_here hne hpieces)
  constructor
  · rintro ⟨hsource, hfile⟩
    exact ⟨names, ⟨hfile, hpath ▸ hsource⟩, hpath⟩
  · rintro ⟨names', hsource, hnames'⟩
    obtain rfl : names = names' := Path.join_injective hpieces (hsource.isPiece hd)
      (hpath.symm.trans hnames')
    exact ⟨hpath ▸ hsource.source, hsource.file⟩

/-! ## Agreement -/

/-- On a disk without links that can be read, for all settings that are accepted: discovery gives just
the keys of the sources, in strict order, exactly if every source directory can be asked for and every
source is reached; every source is reached if all patterns are neat; and what joins a set of sources
that does not track it are just the sources. -/
theorem discover_agrees_iff {base : Path} {file : Fields} {o : Overrides}
    {settings : Settings} (hmerge : Settings.merge (.default base) file o = .ok settings)
    (hd : d.Legal) (hfree : d.tree.LinkFree) (hp : p.Spelled) (habsolute : d.absolute p = .ok root)
    (hread : d.Readable root) :
    ((∃ keys, discover d p settings.sources = .ok keys ∧ keys.Pairwise (compare · · = .lt)
        ∧ ∀ key, key ∈ keys ↔ ∃ names, HasSource d root settings.sources names ∧ key = keyOf names)
      ↔ (∀ dir ∈ settings.sources.roots, ∀ er, d.hasDirectory (root.join (.ofText dir)) ≠ .error er)
        ∧ ∀ names, HasSource d root settings.sources names → Reached settings.sources names)
    ∧ ((∀ pattern ∈ settings.sources.excludes, Neat pattern) →
      ∀ names, HasSource d root settings.sources names → Reached settings.sources names)
    ∧ ∀ (s : SourceSet) tracked (f : TrackedFile), s.rules = settings.sources →
      s.keysOn d = .ok tracked → f.path ∉ tracked → f.location.Straight →
      f.location.key root = .ok f.path →
      (((trackIfPresent d f).runOn s).1 = .ok true
        ↔ ∃ names, HasSource d root settings.sources names ∧ f.path = keyOf names) := by
  have hroots := Settings.merge_roots hmerge
  have hroot := Disk.straight_of_absolute hd hp habsolute
  refine ⟨⟨?_, ?_⟩, fun hneat names hsource => ?_, fun s tracked f hrules hkeys hf hstraight hkey => ?_⟩
  · rintro ⟨keys, hkeys, -, hmem⟩
    have hasked := asked_of_discover habsolute hkeys
    refine ⟨hasked, fun names hsource => ?_⟩
    obtain ⟨keys', hkeys', -, hmem'⟩ := discover_ok hd hfree hroot habsolute hread hroots hasked
    obtain rfl : keys' = keys := Except.ok.inj (hkeys'.symm.trans hkeys)
    obtain ⟨names', hsource', hreached, heq⟩ := (hmem' _).mp ((hmem _).mpr ⟨names, hsource, rfl⟩)
    obtain rfl : names = names' := Path.join_injective (hsource.isPiece hd) (hsource'.isPiece hd) heq
    exact hreached
  · rintro ⟨hasked, hreached⟩
    obtain ⟨keys, hkeys, hstrict, hmem⟩ := discover_ok hd hfree hroot habsolute hread hroots hasked
    refine ⟨keys, hkeys, hstrict, fun key => (hmem key).trans (exists_congr fun names => ?_)⟩
    exact and_congr_right fun hsource => and_iff_right (hreached names hsource)
  · exact reached_of_neat hroots hneat (hsource.isPiece hd) hsource.source
  · exact trackIfPresent_iff hd hfree hread hroots hrules hkeys hf hstraight hkey

/-- The project with one source, with its settings left as they are. -/
theorem discover_agrees_small :
    let d := onlyDisk "class A\n".toList 1
    let rules := (Settings.default onlyRoot).sources
    ∃ keys, discover d onlyRoot rules = .ok keys ∧ keys.Pairwise (compare · · = .lt)
      ∧ ∀ key, key ∈ keys ↔ ∃ names, HasSource d onlyRoot rules names ∧ key = keyOf names := by
  intro d rules
  have ht : d.tree.Legal := Tree.legal_of_check (by decide +kernel) (by decide +kernel)
  have hd : d.Legal := ⟨ht, by simp [d, onlyDisk], fun _ => ht.isDirectory_nil⟩
  have hmerge : Settings.merge (.default onlyRoot) [] .none = .ok (.default onlyRoot) := by
    decide +kernel
  have hread : d.Readable onlyRoot := Disk.readable_of_entries ht.nodes rfl (by decide +kernel)
  have hsrc : d.hasDirectory (onlyRoot.join (.ofText "src".toList)) = .ok true := by decide +kernel
  obtain ⟨hiff, hneat, -⟩ := discover_agrees_iff (p := onlyRoot) hmerge hd
    (Tree.linkFree_of_entries ht.nodes (by decide +kernel)) (by decide) (by decide +kernel) hread
  refine hiff.mpr ⟨fun dir hdir er her => ?_, hneat (by decide +kernel)⟩
  obtain rfl := List.mem_singleton.mp hdir
  exact nomatch hsrc.symm.trans her

/-- A settings file with a slash too many in a pattern, and another pattern that excludes a directory
and not what is in it. -/
def slashedFile : Fields :=
  [("sources".toList, .obj [("exclude_globs".toList,
    .arr [.str "**//build//**".toList, .str "*/build".toList])])]

/-- A disk with a source in that directory. -/
def builtDisk : Disk :=
  ⟨.ofEntries [(["p".toList], .directory 0), (["p".toList, "src".toList], .directory 0),
    (["p".toList, "src".toList, "build".toList], .directory 0),
    (["p".toList, "src".toList, "build".toList, "A.kt".toList], .file [] 0)], [], false⟩

/-- The settings are accepted. The file is a source by its key, and joins a set that does not track it;
discovery does not find it. -/
theorem not_found_in_passed_over_directory :
    ∃ settings, Settings.merge (.default onlyRoot) slashedFile .none = .ok settings
      ∧ discover builtDisk onlyRoot settings.sources = .ok []
      ∧ HasSource builtDisk onlyRoot settings.sources ["src".toList, "build".toList, "A.kt".toList] := by
  refine ⟨{ Settings.default onlyRoot with
    sources := ⟨["src".toList], [".kt".toList], ["**//build//**".toList, "*/build".toList]⟩ },
    by decide +kernel, by decide +kernel, ⟨.file [] 0, by decide +kernel, rfl⟩, by decide +kernel⟩

end SourceSet

end Provenance
