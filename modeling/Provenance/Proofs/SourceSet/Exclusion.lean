/-
Directories that are excluded by name.

A pattern that has a name between slashes and stars excludes what is in the directories of that name,
at any depth. What the pattern matches is a key that has the name between two slashes somewhere, counting
the slash that is put before the key; since neither the name nor a piece of a key has a slash in it, that
is to have the name for a piece, and not for the last one.

So it makes no difference which directories a search passes over: a directory that it does not enter is
in an excluded one already, and everything in it is excluded by its own key. `exclusion_by_directory` has
discovery find what it finds without patterns, less the keys that go through an excluded directory.
-/
import Mathlib.Data.List.Infix
import Provenance.Proofs.SourceSet.Discovery

set_option autoImplicit false

namespace Provenance.SourceSet

variable {d : Disk} {p root start base : Path} {rules : SourceSettings} {names below dirs : List Text}
  {name key : Text} {e : Entry}

/-! ## The pattern of a directory -/

/-- The pattern for what is in the directories of a name. -/
def directoryGlob (name : Text) : Text := "**/".toList ++ name ++ "/**".toList

/-- The name of a directory that stands for itself in a pattern. -/
structure IsLiteral (name : Text) : Prop where
  ne_nil : name ≠ []
  noSlash : '/' ∉ name
  plain : ∀ c ∈ name, Glob.IsPlain c

instance (name : Text) : Decidable (IsLiteral name) :=
  decidable_of_iff (name ≠ [] ∧ '/' ∉ name ∧ (name.all fun c => decide (Glob.IsPlain c)) = true)
    ⟨fun ⟨hne, hslash, hplain⟩ =>
      ⟨hne, hslash, fun c hc => of_decide_eq_true (List.all_eq_true.mp hplain c hc)⟩,
    fun h => ⟨h.ne_nil, h.noSlash, List.all_eq_true.mpr fun c hc => decide_eq_true (h.plain c hc)⟩⟩

/-- Whether one of the directories on the way to a key has one of some names. -/
def goesThrough (dirs : List Text) (key : Text) : Bool :=
  (key.splitOn '/').dropLast.any dirs.contains

theorem goesThrough_keyOf (hn : ∀ n ∈ names, '/' ∉ n) :
    goesThrough dirs (keyOf names) = true ↔ ∃ n ∈ names.dropLast, n ∈ dirs := by
  cases names with
  | nil => simp [goesThrough, Text.join, List.intercalate, Text.splitOn]
  | cons n names =>
    rw [goesThrough, Text.splitOn_join (by simp) hn, List.any_eq_true]
    simp only [List.contains_iff_mem]

/-- A name stands between two slashes of a key, with a slash put before it, exactly if it is a piece of it
and not the last one. -/
theorem infix_keyOf_iff (hslash : '/' ∉ name) (hn : ∀ n ∈ names, '/' ∉ n) (hne : names ≠ []) :
    '/' :: (name ++ ['/']) <:+: '/' :: keyOf names ↔ name ∈ names.dropLast := by
  constructor
  · rintro ⟨a, b, h⟩
    -- both sides are cut at their slashes
    have hcut : Text.splitOn '/' a ++ (name :: Text.splitOn '/' b) = [] :: names := by
      have hinner : Text.splitOn '/' (name ++ '/' :: b) = name :: Text.splitOn '/' b :=
        Text.splitOn_append hslash b
      rw [← hinner, ← Text.splitOn_append_cons, ← Text.splitOn_join hne hn]
      have hshape : a ++ '/' :: (name ++ '/' :: b) = '/' :: keyOf names := by simpa using h
      rw [hshape, Text.splitOn, if_pos rfl]
    obtain ⟨x, xs, hx⟩ := List.exists_cons_of_ne_nil (Text.splitOn_ne_nil '/' a)
    rw [hx, List.cons_append] at hcut
    obtain ⟨-, hnames⟩ := List.cons.inj hcut
    rw [← hnames, List.dropLast_append_of_ne_nil (List.cons_ne_nil name _),
      List.dropLast_cons_of_ne_nil (Text.splitOn_ne_nil '/' b)]
    exact List.mem_append_right xs List.mem_cons_self
  · intro h
    obtain ⟨above, rest, hcut⟩ := List.append_of_mem h
    have hnames : names = above ++ ([name] ++ (rest ++ [names.getLast hne])) := by
      conv_lhs => rw [← List.dropLast_append_getLast hne, hcut]
      simp
    have hinner : keyOf ([name] ++ (rest ++ [names.getLast hne]))
        = name ++ ['/'] ++ keyOf (rest ++ [names.getLast hne]) := by
      rw [keyOf, Text.join_append ['/'] (by simp) (by simp), Text.join_singleton]
    rcases above with _ | ⟨n, above⟩
    · refine ⟨[], keyOf (rest ++ [names.getLast hne]), ?_⟩
      conv_rhs => rw [hnames, List.nil_append, hinner]
      simp
    · refine ⟨'/' :: keyOf (n :: above), keyOf (rest ++ [names.getLast hne]), ?_⟩
      conv_rhs => rw [hnames, keyOf, Text.join_append ['/'] (by simp) (by simp), ← keyOf, ← keyOf, hinner]
      simp

/-- The pattern of a directory takes a key exactly if the directory is on the way to it. -/
theorem excludes_iff_mem_dropLast (hname : IsLiteral name) (hn : ∀ n ∈ names, '/' ∉ n) :
    SourceSettings.anyExcludes [directoryGlob name] (keyOf names) = true ↔ name ∈ names.dropLast := by
  have hplain : ∀ c ∈ '/' :: (name ++ ['/']), Glob.IsPlain c := by
    intro c hc
    rw [List.mem_cons, List.mem_append, List.mem_singleton] at hc
    rcases hc with rfl | hc | rfl
    · decide
    · exact hname.plain c hc
    · decide
  have hpattern : directoryGlob name = "**".toList ++ '/' :: (name ++ ['/']) ++ "**".toList := by
    simp [directoryGlob]
  have hmatch : ∀ t, Glob.globMatch (directoryGlob name) t = true
      ↔ '/' :: (name ++ ['/']) <:+: t := fun t => by
    rw [hpattern]
    exact Glob.globMatch_between_iff hplain (by simp)
  -- what takes the key takes it with a slash before it
  have hkey : SourceSettings.anyExcludes [directoryGlob name] (keyOf names) = true
      ↔ '/' :: (name ++ ['/']) <:+: '/' :: keyOf names := by
    rw [SourceSettings.anyExcludes, List.any_cons, List.any_nil, Bool.or_false, Bool.or_eq_true, hmatch,
      hmatch]
    exact or_iff_right_of_imp fun h => h.trans (List.suffix_cons ..).isInfix
  rw [hkey]
  by_cases hne : names = []
  · subst hne
    refine iff_of_false (fun h => ?_) List.not_mem_nil
    have hlength := h.length_le
    have hpos := List.length_pos_of_ne_nil hname.ne_nil
    simp only [keyOf, Text.join, List.intercalate, List.intersperse, List.flatten_nil, List.length_cons,
      List.length_append, List.length_nil] at hlength
    omega
  · exact infix_keyOf_iff hname.noSlash hn hne

theorem anyExcludes_map (f : Text → Text) (dirs : List Text) (key : Text) :
    SourceSettings.anyExcludes (dirs.map f) key
      = dirs.any fun name => SourceSettings.anyExcludes [f name] key := by
  rw [SourceSettings.anyExcludes, List.any_map]
  simp only [SourceSettings.anyExcludes, List.any_cons, List.any_nil, Bool.or_false, Function.comp_def]

/-- Patterns of directories take a key exactly if one of the directories is on the way to it. -/
theorem anyExcludes_directoryGlobs (hdirs : ∀ name ∈ dirs, IsLiteral name)
    (hn : ∀ n ∈ names, '/' ∉ n) :
    SourceSettings.anyExcludes (dirs.map directoryGlob) (keyOf names) = true
      ↔ ∃ n ∈ names.dropLast, n ∈ dirs := by
  rw [anyExcludes_map, List.any_eq_true]
  constructor
  · rintro ⟨name, hname, h⟩
    exact ⟨name, (excludes_iff_mem_dropLast (hdirs name hname) hn).mp h, hname⟩
  · rintro ⟨name, hmem, hname⟩
    exact ⟨name, hname, (excludes_iff_mem_dropLast (hdirs name hname) hn).mpr hmem⟩

/-! ## Searches -/

/-- Some settings with other patterns. -/
abbrev withExcludes (rules : SourceSettings) (excludes : List Text) : SourceSettings :=
  { rules with excludes }

/-- Without patterns all directories are entered. -/
theorem enters_without (rules : SourceSettings) (base : Path) (below : List Text) :
    enters (withExcludes rules []) base below = true :=
  List.all_eq_true.mpr fun _ _ => rfl

/-- A directory that is excluded by name, and not entered, is on the way to a key that is excluded. -/
theorem enters_of_not_excluded (hdirs : ∀ name ∈ dirs, IsLiteral name)
    (hpieces : ∀ n ∈ base.names ++ below, Path.IsPiece n) (hbase : base.anchor = .here)
    (h : ¬∃ n ∈ (base.names ++ below).dropLast, n ∈ dirs) :
    enters (withExcludes rules (dirs.map directoryGlob)) base below = true := by
  refine List.all_eq_true.mpr fun above habove => ?_
  obtain ⟨hne, rest, hrest, rfl⟩ := mem_properStarts_iff.mp habove
  have hstart : ∀ n ∈ base.names ++ above, Path.IsPiece n := fun n hn =>
    hpieces n (by rw [← List.append_assoc]; exact List.mem_append_left rest hn)
  have htext : (base.descend above).text = keyOf (base.names ++ above) := by
    rw [Path.descend, hbase]
    exact Path.text_here (by simp [hne]) hstart
  rw [Bool.not_eq_true', Bool.eq_false_iff]
  -- what excludes a directory is on the way to it, and so on the way to all that is in it
  intro hprunes
  obtain ⟨-, hexcluded⟩ := Bool.and_eq_true_iff.mp hprunes
  rw [htext] at hexcluded
  obtain ⟨n, hn, hmem⟩ := (anyExcludes_directoryGlobs hdirs fun n hn => (hstart n hn).2.2).mp hexcluded
  refine h ⟨n, ?_, hmem⟩
  rw [← List.append_assoc, List.dropLast_append_of_ne_nil hrest]
  exact List.mem_append_left _ (List.dropLast_subset _ hn)

/-- A search reports what it reports without patterns, if no excluded directory is on the way to it. -/
theorem reports_directoryGlobs (hdirs : ∀ name ∈ dirs, IsLiteral name)
    (hpieces : ∀ n ∈ base.names ++ below, Path.IsPiece n) (hbase : base.anchor = .here)
    (hbelow : below ≠ []) :
    reports (withExcludes rules (dirs.map directoryGlob)) base below e
      = (reports (withExcludes rules []) base below e && !goesThrough dirs (base.descend below).text) := by
  have htext : (base.descend below).text = keyOf (base.names ++ below) := by
    rw [Path.descend, hbase]
    exact Path.text_here (by simp [hbelow]) hpieces
  have hslash : ∀ n ∈ base.names ++ below, '/' ∉ n := fun n hn => (hpieces n hn).2.2
  have hexcluded : (withExcludes rules (dirs.map directoryGlob)).excluded (keyOf (base.names ++ below))
      = goesThrough dirs (keyOf (base.names ++ below)) := by
    rw [Bool.eq_iff_iff, goesThrough_keyOf hslash]
    exact anyExcludes_directoryGlobs hdirs hslash
  have hnone : (withExcludes rules []).excluded (keyOf (base.names ++ below)) = false := rfl
  have hsuffix : (withExcludes rules (dirs.map directoryGlob)).hasSourceSuffix = rules.hasSourceSuffix := rfl
  have hsuffix' : (withExcludes rules []).hasSourceSuffix = rules.hasSourceSuffix := rfl
  unfold reports
  dsimp only
  rw [htext, hexcluded, hnone, hsuffix, hsuffix', enters_without]
  rcases hgoes : goesThrough dirs (keyOf (base.names ++ below)) with _ | _
  · rw [enters_of_not_excluded hdirs hpieces hbase]
    · simp
    · rw [← goesThrough_keyOf hslash, hgoes]
      exact Bool.false_ne_true
  · simp

/-- What a source directory is called from the root are pieces of paths. -/
theorem isPiece_of_relativeTo? {dir : Text} (h : (root.join (.ofText dir)).relativeTo? root = some base) :
    base.anchor = .here ∧ ∀ n ∈ base.names, Path.IsPiece n := by
  unfold Path.relativeTo? at h
  split at h
  · obtain rfl := Option.some.inj h
    refine ⟨rfl, fun n hn => ?_⟩
    unfold Path.join at hn
    split at hn
    · exact Path.isPiece_of_mem_namesIn (List.mem_of_mem_drop hn)
    · rw [List.drop_left] at hn
      exact Path.isPiece_of_mem_namesIn hn
  · simp at h

/-- A search of a source directory finds what it finds without patterns, less what an excluded directory
is on the way to. -/
theorem foundBelow_directoryGlobs (hd : d.Legal) (hdirs : ∀ name ∈ dirs, IsLiteral name) (dir : Text) :
    foundBelow d root (withExcludes rules (dirs.map directoryGlob)) (root.join (.ofText dir))
      = (foundBelow d root (withExcludes rules []) (root.join (.ofText dir))).map
        (List.filter fun key => !goesThrough dirs key) := by
  unfold foundBelow
  split
  · rfl
  · rfl
  split
  · rfl
  rename_i l _ hstat
  have hlisted : ∀ ne ∈ (d.tree.inside l).filter
      (fun ne => !Disk.isOverlong ((root.join (.ofText dir)).descend ne.1.dropLast)),
      ne.1 ≠ [] ∧ ∀ n ∈ ne.1, Path.IsPiece n := by
    rintro ⟨below, e⟩ hmem
    obtain ⟨hne, he⟩ := hd.tree.nodes.mem_inside.mp (List.mem_of_mem_filter hmem)
    refine ⟨hne, fun n hn => ?_⟩
    exact (hd.tree.nodes.isName (Option.isSome_iff_exists.mpr ⟨e, he⟩) n (List.mem_append_right l hn)).1
  -- what is listed is the same for all patterns; they decide what is reported of it
  revert hlisted
  generalize (d.tree.inside l).filter _ = listed
  intro hlisted
  cases listed with
  | nil => rfl
  | cons ne listed =>
    dsimp only
    split
    · rfl
    · rename_i base hbase
      obtain ⟨hhere, hpieces⟩ := isPiece_of_relativeTo? hbase
      rw [Except.map, List.filter_map, List.filter_filter]
      congr 2
      refine List.filter_congr fun ne hne => ?_
      obtain ⟨hbelow, hnames⟩ := hlisted ne hne
      rw [reports_directoryGlobs hdirs _ hhere hbelow, Bool.and_comm]
      · rfl
      · exact fun n hn => (List.mem_append.mp hn).elim (hpieces n) (hnames n)

theorem foundBelowAll_directoryGlobs (hd : d.Legal) (hdirs : ∀ name ∈ dirs, IsLiteral name)
    (sources : List Text) :
    foundBelowAll d root (withExcludes rules (dirs.map directoryGlob)) sources
      = (foundBelowAll d root (withExcludes rules []) sources).map
        (List.filter fun key => !goesThrough dirs key) := by
  induction sources with
  | nil => rfl
  | cons dir sources ih =>
    rw [foundBelowAll, foundBelowAll, foundBelow_directoryGlobs hd hdirs, ih]
    rcases foundBelow d root (withExcludes rules []) (root.join (.ofText dir)) with c | keys
    · rfl
    rcases foundBelowAll d root (withExcludes rules []) sources with c | more
    · rfl
    · simp [Except.map, List.filter_append]

/-- Discovery finds what it finds without patterns, less what an excluded directory is on the way to. -/
theorem discover_directoryGlobs (hd : d.Legal) (hdirs : ∀ name ∈ dirs, IsLiteral name) :
    discover d p (withExcludes rules (dirs.map directoryGlob))
      = (discover d p (withExcludes rules [])).map (List.filter fun key => !goesThrough dirs key) := by
  rcases habsolute : d.absolute p with er | root
  · simp [discover, habsolute, Except.map, bind, Except.bind]
  rw [discover_eq habsolute, discover_eq habsolute, foundBelowAll_directoryGlobs hd hdirs]
  rcases foundBelowAll d root (withExcludes rules []) rules.roots with c | keys
  · rfl
  refine congrArg Except.ok (filter_sorted (nodup_distinct _) (nodup_distinct _) fun key => ?_).symm
  rw [mem_distinct, List.mem_filter, mem_distinct]

/-- So discovery finds the sources without an excluded directory on the way, on a disk without links that
can be read. -/
theorem discover_sources_outside (hd : d.Legal) (hfree : d.tree.LinkFree) (hp : p.Spelled)
    (habsolute : d.absolute p = .ok root) (hread : d.Readable root)
    (hroots : ∀ dir ∈ rules.roots, Settings.IsDirectory dir)
    (hasked : ∀ dir ∈ rules.roots, ∀ er, d.hasDirectory (root.join (.ofText dir)) ≠ .error er)
    (hdirs : ∀ name ∈ dirs, IsLiteral name) :
    ∃ keys, discover d p (withExcludes rules (dirs.map directoryGlob)) = .ok keys
      ∧ ∀ key, key ∈ keys ↔ ∃ names, HasSource d root (withExcludes rules []) names
        ∧ (∀ n ∈ names.dropLast, n ∉ dirs) ∧ key = keyOf names := by
  have hroot := Disk.straight_of_absolute hd hp habsolute
  have hroots' : ∀ dir ∈ (withExcludes rules []).roots, Settings.IsDirectory dir := hroots
  obtain ⟨all, hall, -, hmem⟩ := discover_ok hd hfree hroot habsolute hread hroots' hasked
  refine ⟨all.filter fun key => !goesThrough dirs key, ?_, fun key => ?_⟩
  · rw [discover_directoryGlobs hd hdirs, hall]
    rfl
  have hthrough : ∀ names, HasSource d root (withExcludes rules []) names →
      ((!goesThrough dirs (keyOf names)) = true ↔ ∀ n ∈ names.dropLast, n ∉ dirs) :=
    fun names hsource => by
      rw [Bool.not_eq_true', ← Bool.not_eq_true,
        goesThrough_keyOf fun n hn => (hsource.isPiece hd n hn).2.2]
      simp only [not_exists, not_and]
  rw [List.mem_filter, hmem]
  constructor
  · rintro ⟨⟨names, hsource, -, rfl⟩, hout⟩
    exact ⟨names, hsource, (hthrough names hsource).mp hout, rfl⟩
  · rintro ⟨names, hsource, hout, rfl⟩
    have hreached : Reached (withExcludes rules []) names :=
      reached_of_neat hroots (by simp) (hsource.isPiece hd) hsource.source
    exact ⟨⟨names, hsource, hreached, rfl⟩, (hthrough names hsource).mpr hout⟩

/-- Patterns of directories, of which the defaults are two, take a key exactly if one of the directories is
on the way to it. Discovery under them finds what it finds without patterns, less what an excluded directory
is on the way to, whatever is passed over; so on a disk without links that can be read it finds just the
sources that no excluded directory is on the way to. -/
theorem exclusion_by_directory (hdirs : ∀ name ∈ dirs, IsLiteral name) :
    (∀ names : List Text, (∀ n ∈ names, '/' ∉ n) →
      (SourceSettings.anyExcludes (dirs.map directoryGlob) (keyOf names) = true
        ↔ ∃ n ∈ names.dropLast, n ∈ dirs))
    ∧ (∀ (d : Disk) p rules, d.Legal → discover d p (withExcludes rules (dirs.map directoryGlob))
        = (discover d p (withExcludes rules [])).map (List.filter fun key => !goesThrough dirs key))
    ∧ (∀ (d : Disk) p root rules, d.Legal → d.tree.LinkFree → p.Spelled → d.absolute p = .ok root →
      d.Readable root → (∀ dir ∈ rules.roots, Settings.IsDirectory dir) →
      (∀ dir ∈ rules.roots, ∀ er, d.hasDirectory (root.join (.ofText dir)) ≠ .error er) →
      ∃ keys, discover d p (withExcludes rules (dirs.map directoryGlob)) = .ok keys
        ∧ ∀ key, key ∈ keys ↔ ∃ names, HasSource d root (withExcludes rules []) names
          ∧ (∀ n ∈ names.dropLast, n ∉ dirs) ∧ key = keyOf names)
    ∧ ∀ base : Path, (∀ name ∈ [".git".toList, "build".toList], IsLiteral name)
      ∧ (Settings.default base).sources.excludes = [".git".toList, "build".toList].map directoryGlob := by
  refine ⟨fun names hn => anyExcludes_directoryGlobs hdirs hn,
    fun d p rules hd => discover_directoryGlobs hd hdirs,
    fun d p root rules hd hfree hp habsolute hread hroots hasked =>
      discover_sources_outside hd hfree hp habsolute hread hroots hasked hdirs,
    fun base => ⟨by decide, rfl⟩⟩

/-- A source in an excluded directory is not found; a key that ends in the name of one, and goes through a
directory with a longer name, is not excluded. -/
theorem exclusion_by_directory_small :
    SourceSettings.anyExcludes (["build".toList].map directoryGlob) "src/build/A.kt".toList = true
    ∧ SourceSettings.anyExcludes (["build".toList].map directoryGlob) "src/rebuild/build".toList = false
    ∧ discover builtDisk onlyRoot onlyRules = .ok ["src/build/A.kt".toList]
    ∧ discover builtDisk onlyRoot (withExcludes onlyRules (["build".toList].map directoryGlob))
      = .ok [] := by
  have hdirs : ∀ name ∈ ["build".toList], IsLiteral name := by decide
  have ht : builtDisk.tree.Legal := Tree.legal_of_check (by decide +kernel) (by decide +kernel)
  have hd : builtDisk.Legal := ⟨ht, by simp [builtDisk], fun _ => ht.isDirectory_nil⟩
  obtain ⟨hkeys, hdiscover, -, -⟩ := exclusion_by_directory hdirs
  have hall : discover builtDisk onlyRoot onlyRules = .ok ["src/build/A.kt".toList] := by decide +kernel
  refine ⟨(hkeys ["src".toList, "build".toList, "A.kt".toList] (by decide)).mpr (by decide), ?_, hall, ?_⟩
  · rw [← Bool.not_eq_true]
    exact fun h => absurd ((hkeys ["src".toList, "rebuild".toList, "build".toList] (by decide)).mp h)
      (by decide)
  · have hnone : withExcludes onlyRules [] = onlyRules := rfl
    rw [hdiscover builtDisk onlyRoot onlyRules hd, hnone, hall]
    decide +kernel

end Provenance.SourceSet
