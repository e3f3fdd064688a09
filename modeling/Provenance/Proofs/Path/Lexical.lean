/-
Spellings and the locations they denote.

The location that a spelling denotes can be told without the disk. What is between the slashes is
gone through from the root of the file system: nothing and a single dot say nothing, two dots take
the last name off again, and at the root they stay there. As POSIX has it, a text with exactly two
slashes at its beginning has a root of its own.

A key is to be what is left of that location below the project root, and almost always it is. The
one thing that goes another way is the root of the file system: it stands on the stack of parts as
a name does, so two dots take it off as well. What comes after that is no absolute path and so in
no project, wherever it leads, and where nothing comes after it the spelling is left as it was, two
dots included. `keyTells_iff` says exactly when that makes a difference.
-/
import Provenance.Proofs.Spelling

set_option autoImplicit false

namespace Provenance.Path

variable {root p : Path} {raw t : Text} {names ns pieces : List Text}

/-! ## Locations -/

/-- Where what is between two slashes leads from some names. -/
def follow (names : List Text) (piece : Text) : List Text :=
  if piece = [] ∨ piece = ['.'] then names
  else if piece = upName then names.dropLast
  else names ++ [piece]

/-- The location that a spelling denotes: an absolute spelling from the root of the file system on, any
other from the project root on. -/
def location (root : Path) (raw : Text) : Path :=
  let t := raw.replaceChar '\\' '/'
  if t.startsWith ['/'] then ⟨anchorOf t, (t.splitOn '/').foldl follow []⟩
  else ⟨root.anchor, (root.names ++ t.splitOn '/').foldl follow []⟩

/-- What says nothing can be left out beforehand. -/
theorem foldl_follow_splitOn (names : List Text) (t : Text) :
    (t.splitOn '/').foldl follow names = (namesIn t).foldl follow names := by
  rw [namesIn, List.foldl_filter]
  congr 1
  funext names piece
  by_cases h : piece ≠ [] ∧ piece ≠ ['.']
  · rw [if_pos (decide_eq_true h)]
  · have hsilent : piece = [] ∨ piece = ['.'] := by
      by_cases hnil : piece = []
      · exact .inl hnil
      · exact .inr (Decidable.not_not.mp fun hdot => h ⟨hnil, hdot⟩)
    rw [if_neg (by simpa using h), follow, if_pos hsilent]

theorem anchorOf_eq_here_iff (t : Text) : anchorOf t = .here ↔ t.startsWith ['/'] = false := by
  rcases t with _ | ⟨c, t⟩
  · simp [anchorOf, Text.startsWith]
  by_cases hc : c = '/'
  · rw [hc]
    have hslash : Text.startsWith ('/' :: t) ['/'] = true := rfl
    rw [hslash]
    refine ⟨fun h => ?_, fun h => Bool.noConfusion h⟩
    unfold anchorOf at h
    split at h <;> simp_all
  · have hslash : Text.startsWith (c :: t) ['/'] = false := by
      simp [Text.startsWith, List.isPrefixOf, Ne.symm hc]
    rw [hslash]
    refine ⟨fun _ => rfl, fun _ => ?_⟩
    unfold anchorOf
    split <;> simp_all

/-- The location of a spelling is that of the path it is read as. -/
theorem location_eq (root : Path) (raw : Text) :
    location root raw
      = ⟨(spelled root raw).anchor, (spelled root raw).names.foldl follow []⟩ := by
  unfold location spelled join
  by_cases h : (raw.replaceChar '\\' '/').startsWith ['/'] = true
  · have habsolute : (ofText (raw.replaceChar '\\' '/')).isAbsolute = true := by
      refine decide_eq_true fun hhere => ?_
      rw [(anchorOf_eq_here_iff _).mp hhere] at h
      exact Bool.noConfusion h
    rw [if_pos h, if_pos habsolute, foldl_follow_splitOn]
    rfl
  · have hrelative : ¬(ofText (raw.replaceChar '\\' '/')).isAbsolute = true := by
      intro habsolute
      exact of_decide_eq_true habsolute ((anchorOf_eq_here_iff _).mpr (Bool.not_eq_true _ ▸ h))
    rw [if_neg h, if_neg hrelative, List.foldl_append, foldl_follow_splitOn]
    exact congrArg _ (List.foldl_append ..).symm

theorem isName_of_mem_foldl_follow (hnames : ∀ n ∈ names, IsName n) (hpieces : ∀ n ∈ pieces, '/' ∉ n) :
    ∀ n ∈ pieces.foldl follow names, IsName n := by
  induction pieces generalizing names with
  | nil => exact hnames
  | cons piece pieces ih =>
    refine ih ?_ fun n hn => hpieces n (List.mem_cons_of_mem _ hn)
    intro n hn
    unfold follow at hn
    split at hn
    · exact hnames n hn
    rename_i hskip
    rw [not_or] at hskip
    split at hn
    · exact hnames n (List.dropLast_subset _ hn)
    rename_i hup
    rcases List.mem_append.mp hn with hn | hn
    · exact hnames n hn
    · rw [List.mem_singleton.mp hn]
      exact ⟨⟨hskip.1, hskip.2, hpieces piece List.mem_cons_self⟩, hup⟩

/-! ## Two dots at the root -/

/-- Whether two dots come up where no name is left that they could take off. -/
def climbs : List Text → List Text → Bool
  | _, [] => false
  | names, piece :: rest => decide (names = [] ∧ piece = upName) || climbs (follow names piece) rest

theorem upName_mem_of_climbs (h : climbs names pieces = true) : upName ∈ pieces := by
  induction pieces generalizing names with
  | nil => exact Bool.noConfusion h
  | cons piece pieces ih =>
    rw [climbs, Bool.or_eq_true, decide_eq_true_eq] at h
    rcases h with ⟨-, rfl⟩ | h
    · exact List.mem_cons_self
    · exact List.mem_cons_of_mem _ (ih h)

/-- A stack of names, gone through as the reading of spellings does. -/
theorem walkNames_eq_foldl (hns : ∀ n ∈ ns, IsPiece n) (stack : List Text) :
    walkNames stack ns = ns.foldl follow stack.reverse := by
  induction ns generalizing stack with
  | nil => rfl
  | cons n ns ih =>
    have hn := hns n List.mem_cons_self
    have hskip : ¬(n = [] ∨ n = ['.']) := not_or.mpr ⟨hn.1, hn.2.1⟩
    have hrest := ih fun m hm => hns m (List.mem_cons_of_mem _ hm)
    rw [walkNames, List.foldl_cons, follow, if_neg hskip]
    by_cases hup : n = upName
    · rw [if_pos hup, if_pos hup, hrest, List.dropLast_reverse]
    · rw [if_neg hup, if_neg hup, hrest, List.reverse_cons]

/-- What stands below the names on the stack stays there unless two dots climb over them. -/
theorem foldl_follow_cons (bottom : Text) (names pieces : List Text) :
    pieces.foldl follow (bottom :: names)
      = if climbs names pieces = true then pieces.foldl follow names
        else bottom :: pieces.foldl follow names := by
  induction pieces generalizing names with
  | nil => rfl
  | cons piece pieces ih =>
    rw [List.foldl_cons, List.foldl_cons, climbs]
    by_cases hskip : piece = [] ∨ piece = ['.']
    · have hup : ¬(names = [] ∧ piece = upName) := by
        rintro ⟨-, rfl⟩
        exact absurd hskip (by decide)
      rw [decide_eq_false hup, Bool.false_or, follow, if_pos hskip, follow, if_pos hskip, ih]
    by_cases hup : piece = upName
    · by_cases hnil : names = []
      · rw [decide_eq_true ⟨hnil, hup⟩, Bool.true_or, if_pos rfl, follow, if_neg hskip, if_pos hup,
          follow, if_neg hskip, if_pos hup, hnil]
        rfl
      · rw [decide_eq_false fun h => hnil h.1, Bool.false_or, follow, if_neg hskip, if_pos hup,
          List.dropLast_cons_of_ne_nil hnil, follow, if_neg hskip, if_pos hup, ih]
    · rw [decide_eq_false fun h => hup h.2, Bool.false_or, follow, if_neg hskip, if_neg hup,
        List.cons_append, follow, if_neg hskip, if_neg hup, ih]

/-! ## What a spelling comes to -/

theorem isAbsolute_spelled (hroot : root.isAbsolute = true) (raw : Text) :
    (spelled root raw).isAbsolute = true := by
  unfold spelled join
  split
  · assumption
  · exact hroot

theorem isPiece_spelled (hroot : root.Normal) (raw : Text) :
    ∀ n ∈ (spelled root raw).names, IsPiece n := by
  unfold spelled join
  split
  · exact fun n hn => isPiece_of_mem_namesIn hn
  · exact List.forall_mem_append.mpr ⟨hroot.isPiece, fun n hn => isPiece_of_mem_namesIn hn⟩

/-- All that a spelling leads through is names. -/
theorem isName_location (hroot : root.Normal) (raw : Text) :
    ∀ n ∈ (location root raw).names, IsName n := by
  rw [location_eq]
  exact isName_of_mem_foldl_follow (by simp) fun n hn => (isPiece_spelled hroot raw n hn).2.2

/-- The parts of a spelling, two dots resolved: the anchor is gone if the names climb. -/
theorem walkNames_spelled (hroot : root.Normal) (raw : Text) :
    walkNames [] (spelled root raw).parts
      = if climbs [] (spelled root raw).names = true then (location root raw).names
        else (spelled root raw).anchor.text :: (location root raw).names := by
  have hup : (spelled root raw).anchor.text ≠ upName := fun h =>
    upName_not_mem_anchor _ (List.mem_singleton.mpr h.symm)
  rw [parts_of_isAbsolute (isAbsolute_spelled hroot.isAbsolute raw), walkNames, if_neg hup,
    walkNames_eq_foldl (isPiece_spelled hroot raw), List.reverse_singleton, foldl_follow_cons, location_eq]

/-- Where the names do not climb, a spelling comes to its location. -/
theorem resolveSpelling_of_not_climbs (hroot : root.Normal)
    (h : climbs [] (spelled root raw).names = false) :
    resolveSpelling root raw = location root raw := by
  have hanchor : (spelled root raw).anchor = (location root raw).anchor := by rw [location_eq]
  have habsolute : (location root raw).isAbsolute = true := by
    rw [isAbsolute, ← hanchor]
    exact isAbsolute_spelled hroot.isAbsolute raw
  have hparts := walkNames_spelled hroot raw
  rw [h, if_neg Bool.false_ne_true, hanchor] at hparts
  unfold resolveSpelling
  rw [hparts]
  show ofParts ((location root raw).anchor.text :: (location root raw).names) = _
  rw [← parts_of_isAbsolute habsolute, ofParts_parts habsolute]

/-- Where they climb and something is left, it comes to no absolute path. -/
theorem resolveSpelling_of_names (hroot : root.Normal)
    (h : climbs [] (spelled root raw).names = true) (hne : (location root raw).names ≠ []) :
    (resolveSpelling root raw).anchor = .here := by
  have hnames := isName_location hroot raw
  unfold resolveSpelling
  rw [walkNames_spelled hroot, if_pos h]
  rcases hns : (location root raw).names with _ | ⟨n, ns⟩
  · exact absurd hns hne
  · -- the first name has no slash, so it is not taken for an anchor
    rw [hns] at hnames
    have hslash : '/' ∉ n := (hnames n List.mem_cons_self).1.2.2
    show (ofParts (n :: ns)).anchor = .here
    unfold ofParts
    split
    · simp_all
    · simp_all
    · rfl

/-- Where they climb and nothing is left, it stays as it is. -/
theorem resolveSpelling_of_nil (hroot : root.Normal)
    (h : climbs [] (spelled root raw).names = true) (hnil : (location root raw).names = []) :
    resolveSpelling root raw = spelled root raw := by
  unfold resolveSpelling
  rw [walkNames_spelled hroot, if_pos h, hnil]

/-! ## Keys of locations -/

/-- A path goes on from another one, by any number of names. -/
def AtOrBelow (p root : Path) : Prop := ∃ below, p = root.descend below

/-- A spelling has the key of its location: none outside the project, else the names below the project
root with slashes between, or a dot for the root itself. -/
structure KeyTells (root : Path) (raw : Text) : Prop where
  outside : normalizeKey? root raw = none ↔ ¬(location root raw).AtOrBelow root
  inside : ∀ below, location root raw = root.descend below →
    normalizeKey? root raw = some (if below = [] then ['.'] else Text.join ['/'] below)
  names : ∀ k, normalizeKey? root raw = some k → k = ['.'] ∨ ∀ n ∈ k.splitOn '/', IsName n

theorem normalizeKey?_of_descend (h : resolveSpelling root raw = root.descend ns) :
    normalizeKey? root raw = some (⟨.here, ns⟩ : Path).text := by
  rw [normalizeKey?, h, relativeTo?_descend, Option.map_some]

theorem normalizeKey?_eq_none_iff :
    normalizeKey? root raw = none ↔ ¬(resolveSpelling root raw).AtOrBelow root := by
  constructor
  · rintro hnone ⟨below, hbelow⟩
    rw [normalizeKey?_of_descend hbelow] at hnone
    exact absurd hnone (Option.some_ne_none _)
  · intro houtside
    rw [Option.eq_none_iff_forall_not_mem]
    intro k hk
    obtain ⟨ns, -, hns⟩ := exists_of_normalizeKey? hk
    exact houtside ⟨ns, hns⟩

theorem text_here_eq (hns : ∀ n ∈ ns, IsPiece n) :
    (⟨.here, ns⟩ : Path).text = if ns = [] then ['.'] else Text.join ['/'] ns := by
  by_cases hnil : ns = []
  · rw [if_pos hnil, hnil]
    rfl
  · rw [if_neg hnil, text_here hnil hns]

theorem splitOn_text_here (hne : ns ≠ []) (hns : ∀ n ∈ ns, IsPiece n) :
    (⟨.here, ns⟩ : Path).text.splitOn '/' = ns := by
  rw [text_here hne hns, Text.splitOn_join hne fun n hn => (hns n hn).2.2]

/-- A spelling that comes to its location has the key of it. -/
theorem keyTells_of_resolve (hroot : root.Normal) (h : resolveSpelling root raw = location root raw) :
    KeyTells root raw := by
  have hnames : ∀ below, location root raw = root.descend below → ∀ n ∈ below, IsName n := by
    intro below hbelow n hn
    refine isName_location hroot raw n ?_
    rw [hbelow]
    exact List.mem_append_right _ hn
  refine ⟨?_, fun below hbelow => ?_, fun k hk => ?_⟩
  · rw [normalizeKey?_eq_none_iff, h]
  · rw [normalizeKey?_of_descend (h.trans hbelow),
      text_here_eq fun n hn => (hnames below hbelow n hn).1]
  · obtain ⟨ns, rfl, hns⟩ := exists_of_normalizeKey? hk
    have hall := hnames ns (h.symm.trans hns)
    by_cases hnil : ns = []
    · exact .inl (hnil ▸ rfl)
    · rw [splitOn_text_here hnil fun n hn => (hall n hn).1]
      exact .inr hall

/-- One outside the project that comes to nothing in it has none. -/
theorem keyTells_of_outside (hlocation : ¬(location root raw).AtOrBelow root)
    (h : ¬(resolveSpelling root raw).AtOrBelow root) : KeyTells root raw := by
  have hnone : normalizeKey? root raw = none := normalizeKey?_eq_none_iff.mpr h
  refine ⟨iff_of_true hnone hlocation, fun below hbelow => absurd ⟨below, hbelow⟩ hlocation, ?_⟩
  intro k hk
  rw [hnone] at hk
  exact absurd hk.symm (Option.some_ne_none k)

/-- The two dots that climb are still there if the spelling stays as it is, so it has no key that tells
its location. -/
theorem not_keyTells_of_spelled (hroot : root.Normal)
    (hclimbs : climbs [] (spelled root raw).names = true) (h : resolveSpelling root raw = spelled root raw)
    (hinside : (spelled root raw).AtOrBelow root) : ¬KeyTells root raw := by
  intro htells
  obtain ⟨below, hbelow⟩ := hinside
  have hpieces := isPiece_spelled hroot raw
  have hup := upName_mem_of_climbs hclimbs
  rw [hbelow] at hpieces hup
  have hmem : upName ∈ below :=
    (List.mem_append.mp hup).resolve_left fun hmem => (hroot.names upName hmem).2 rfl
  have hsplit := splitOn_text_here (List.ne_nil_of_mem hmem)
    fun n hn => hpieces n (List.mem_append_right _ hn)
  rcases htells.names _ (normalizeKey?_of_descend (h.trans hbelow)) with hdot | hnames
  · rw [hdot] at hsplit
    rw [← hsplit] at hmem
    exact absurd hmem (by decide)
  · rw [hsplit] at hnames
    exact (hnames upName hmem).2 rfl

/-- If the root of the file system is in the project, it is the project root, and everything is in the
project. -/
theorem atOrBelow_spelled (hnil : (location root raw).names = [])
    (h : (location root raw).AtOrBelow root) : (spelled root raw).AtOrBelow root := by
  obtain ⟨below, hbelow⟩ := h
  have hroot : root.names = [] := by
    rw [hbelow] at hnil
    exact (List.append_eq_nil_iff.mp hnil).1
  have hanchor : (spelled root raw).anchor = root.anchor := by
    rw [location_eq] at hbelow
    exact (Path.mk.inj hbelow).1
  refine ⟨(spelled root raw).names, ?_⟩
  rw [descend, hroot, List.nil_append, ← hanchor]

/-- Spellings that climb over the root of the file system and lead into the project nonetheless, or back
to the root of the file system where they are read as a way through the project. -/
def LeadsAstray (root : Path) (raw : Text) : Prop :=
  climbs [] (spelled root raw).names = true
    ∧ ((location root raw).AtOrBelow root
      ∨ (location root raw).names = [] ∧ (spelled root raw).AtOrBelow root)

/-- The key of a spelling is that of the location it denotes, and has neither dots nor empty pieces in it,
unless the spelling climbs over the root of the file system and that makes a difference. -/
theorem keyTells_iff (hroot : root.Normal) : KeyTells root raw ↔ ¬LeadsAstray root raw := by
  cases hclimbs : climbs [] (spelled root raw).names with
  | false =>
    refine iff_of_true (keyTells_of_resolve hroot (resolveSpelling_of_not_climbs hroot hclimbs)) ?_
    rintro ⟨h, -⟩
    rw [hclimbs] at h
    exact Bool.noConfusion h
  | true =>
    by_cases hnil : (location root raw).names = []
    · have hresolve := resolveSpelling_of_nil hroot hclimbs hnil
      by_cases hinside : (spelled root raw).AtOrBelow root
      · exact iff_of_false (not_keyTells_of_spelled hroot hclimbs hresolve hinside)
          (not_not_intro ⟨hclimbs, .inr ⟨hnil, hinside⟩⟩)
      · have hlocation := mt (atOrBelow_spelled hnil) hinside
        refine iff_of_true (keyTells_of_outside hlocation (hresolve ▸ hinside)) ?_
        rintro ⟨-, h | h⟩
        · exact hlocation h
        · exact hinside h.2
    · have hhere := resolveSpelling_of_names hroot hclimbs hnil
      have hresolve : ¬(resolveSpelling root raw).AtOrBelow root := by
        rintro ⟨below, hbelow⟩
        rw [hbelow] at hhere
        exact of_decide_eq_true hroot.isAbsolute hhere
      by_cases hinside : (location root raw).AtOrBelow root
      · refine iff_of_false (fun htells => ?_) (not_not_intro ⟨hclimbs, .inl hinside⟩)
        exact htells.outside.mp (normalizeKey?_eq_none_iff.mpr hresolve) hinside
      · refine iff_of_true (keyTells_of_outside hinside hresolve) ?_
        rintro ⟨-, h | h⟩
        · exact hinside h
        · exact hnil h.1

/-- A project root. -/
def homeRoot : Path := ⟨.root, ["home".toList, "p".toList]⟩

/-- Two dots may lead out of the project and back in. -/
theorem keyTells_back_in : homeRoot.Normal ∧ ¬LeadsAstray homeRoot "../.././/home\\p/src/A.kt".toList
    ∧ KeyTells homeRoot "../.././/home\\p/src/A.kt".toList := by
  have hroot : homeRoot.Normal := ⟨by decide, by decide⟩
  have hastray : ¬LeadsAstray homeRoot "../.././/home\\p/src/A.kt".toList := fun h =>
    absurd h.1 (by decide)
  exact ⟨hroot, hastray, (keyTells_iff hroot).mpr hastray⟩

/-- Two dots too many, and a spelling that comes to the root of the file system has itself for its key; a
file of the project that is spelled by way of what is above the root has none. -/
theorem not_keyTells_over_the_root :
    homeRoot.Normal
      ∧ normalizeKey? homeRoot "../../..".toList = some "../../..".toList
      ∧ ¬KeyTells homeRoot "../../..".toList
      ∧ normalizeKey? homeRoot "/../home/p/src/A.kt".toList = none
      ∧ ¬KeyTells homeRoot "/../home/p/src/A.kt".toList := by
  have hself : normalizeKey? homeRoot "../../..".toList = some "../../..".toList := by decide
  have hnone : normalizeKey? homeRoot "/../home/p/src/A.kt".toList = none := by decide
  refine ⟨⟨by decide, by decide⟩, hself, fun h => ?_, hnone, fun h => ?_⟩
  · exact absurd (h.names _ hself) (by decide)
  · exact h.outside.mp hnone ⟨["src".toList, "A.kt".toList], by decide⟩

end Provenance.Path
