/-
Classes and the keys of their files.

Between the full name of a class and the key of its class file dots are replaced twice, by slashes in
the package and by dollar signs behind it, and what comes out is read as a path. Where all segments
of the name are words, nothing of that is lost. The names that lead to the class file from the output
directory are the segments of the package and a last one, and of these the class can be put together
again. So every class has a class file, no two classes have the same one, and its key tells the class.

The words here are made of letters, digits and underscores of any script. Identifiers are such words;
that they do not begin with a digit makes no difference.
-/
import Provenance.Proofs.ArtifactPath
import Provenance.Proofs.Binding

set_option autoImplicit false

namespace Provenance

variable {t : Text} {c d : ClassName}

/-! ## Words -/

theorem CodeRanges.exists_of_has {ranges : CodeRanges} {n : Nat} (h : ranges.has n = true) :
    ∃ range ∈ ranges, range.1 ≤ n ∧ n ≤ range.2 := by
  induction ranges with
  | nil => exact absurd h Bool.false_ne_true
  | cons range ranges ih =>
    obtain ⟨first, last⟩ := range
    rw [CodeRanges.has] at h
    split at h
    · exact absurd h Bool.false_ne_true
    split at h
    · exact ⟨_, List.mem_cons_self, by omega, by assumption⟩
    · obtain ⟨range, hmem, hrange⟩ := ih h
      exact ⟨range, List.mem_cons_of_mem _ hmem, hrange⟩

/-- The tables of word characters and of blanks have no code point in common. -/
theorem wordRanges_apart_blankRanges :
    ∀ word ∈ wordRanges, ∀ blank ∈ blankRanges, word.2 < blank.1 ∨ blank.2 < word.1 := by
  decide +kernel

theorem not_isBlank_of_isWordChar {c : Char} (h : isWordChar c = true) : isBlank c = false := by
  rw [← Bool.not_eq_true]
  intro hblank
  obtain ⟨word, hword, hle, hle'⟩ := CodeRanges.exists_of_has h
  obtain ⟨blank, hmem, hge, hge'⟩ := CodeRanges.exists_of_has hblank
  have hapart := wordRanges_apart_blankRanges word hword blank hmem
  omega

/-- One or more letters, digits and underscores. -/
def IsWord (t : Text) : Prop := t ≠ [] ∧ ∀ c ∈ t, isWordChar c = true

instance (t : Text) : Decidable (IsWord t) :=
  decidable_of_iff (t ≠ [] ∧ t.all isWordChar = true) (by rw [List.all_eq_true, IsWord])

theorem IsWord.not_mem {a : Char} (h : IsWord t) (ha : isWordChar a = false) : a ∉ t := fun hmem =>
  absurd (h.2 a hmem) (by rw [ha]; exact Bool.false_ne_true)

/-- An identifier is a word. -/
theorem Outline.IsIdent.isWord (h : IsIdent t) : IsWord t := by
  have hascii : ∀ n < 128, Outline.isIdentPart (Char.ofNat n) = true → wordRanges.has n = true := by
    decide +kernel
  refine ⟨h.ne_nil, fun c hc => ?_⟩
  have hpart := h.isIdentPart c hc
  have hcode : c.toNat < 128 := by
    simp only [Outline.isIdentPart, Outline.isIdentStart, Bool.or_eq_true, Bool.and_eq_true, decide_eq_true_eq] at hpart
    rcases hpart with ((⟨-, hle⟩ | ⟨-, hle⟩) | rfl) | ⟨-, hle⟩
    · exact Nat.lt_of_le_of_lt hle (by decide)
    · exact Nat.lt_of_le_of_lt hle (by decide)
    · decide
    · exact Nat.lt_of_le_of_lt hle (by decide)
  exact hascii c.toNat hcode (by rwa [Char.ofNat_toNat])

/-- Entries of a directory can have words for names. -/
theorem IsWord.isName (h : IsWord t) : Path.IsName t := by
  have hdot : '.' ∉ t := h.not_mem (by decide +kernel)
  refine ⟨⟨h.1, ?_, h.not_mem (by decide +kernel)⟩, ?_⟩
  · rintro rfl
    exact hdot (by decide)
  · rintro rfl
    exact hdot (by decide)

/-! ## Names of class files -/

theorem Artifact.mem_of_hasDrive (h : Artifact.hasDrive t = true) : ':' ∈ t := by
  unfold Artifact.hasDrive at h
  split at h
  · simp
  · exact absurd h Bool.false_ne_true

namespace ClassName

/-- The segments of the package. -/
def segments (c : ClassName) : List Text :=
  match c.package? with
  | none => []
  | some p => Text.splitOn '.' p

/-- The names that lead to the class file of a class from the output directory: the segments of the
package, and the classes from the outermost on with the ending of class files. -/
def fileNames (c : ClassName) : List Text :=
  c.segments ++ [Text.join ['$'] c.classPath ++ Artifact.classSuffix]

/-- The class that such names lead to. -/
def ofFileNames (names : List Text) : ClassName :=
  let file := names.getLastD []
  let classes := Text.splitOn '$' (file.take (file.length - Artifact.classSuffix.length))
  let package := Outline.packageOf names.dropLast
  ⟨Outline.fullNameOf package classes, package⟩

/-- The class whose class file has a key, where some names lead from the project root to the output
directory. -/
def ofKey (dirs : List Text) (key : Text) : ClassName :=
  ofFileNames ((Path.namesIn key).drop dirs.length)

theorem internalName_append (c : ClassName) :
    c.internalName ++ Artifact.classSuffix = Text.join ['/'] c.fileNames := by
  rw [internalName, fileNames, segments]
  rcases c.package? with _ | p
  · exact (Text.join_singleton ..).symm
  · rw [Text.join_concat _ _ _ (Text.splitOn_ne_nil '.' p), Text.join_splitOn_replace]
    simp only [List.append_assoc, List.cons_append, List.nil_append]

/-- A class name whose package, if it has one, and whose classes are words with dots between. -/
structure OfWords (c : ClassName) : Prop where
  accepted : make c.fullName c.package = .ok c
  package : ∀ p ∈ c.package, ∀ s ∈ Text.splitOn '.' p, IsWord s
  classes : ∀ s ∈ c.classPath, IsWord s

/-- The package is not empty, so it counts. -/
theorem OfWords.package? (h : c.OfWords) : c.package? = c.package := by
  rcases hp : c.package with _ | p
  · rw [ClassName.package?, hp]
    rfl
  · have hne : p ≠ [] := by
      rintro rfl
      exact (h.package [] hp [] (by decide)).1 rfl
    rw [ClassName.package?, hp, Option.filter_some, if_pos (decide_eq_true hne)]

theorem OfWords.segments (h : c.OfWords) : ∀ s ∈ c.segments, IsWord s := by
  intro s hs
  unfold ClassName.segments at hs
  rw [h.package?] at hs
  split at hs
  · exact absurd hs List.not_mem_nil
  · rename_i p hp
    exact h.package p hp s hs

theorem OfWords.packageOf_segments (h : c.OfWords) : Outline.packageOf c.segments = c.package := by
  unfold ClassName.segments
  rw [h.package?]
  rcases c.package with _ | p
  · rfl
  · obtain ⟨s, rest, hs⟩ := List.exists_cons_of_ne_nil (Text.splitOn_ne_nil '.' p)
    have hjoin := Text.join_splitOn '.' p
    rw [hs] at hjoin
    simp only [hs, Outline.packageOf, hjoin]

theorem prefix_of_make {full p : Text} {package : Option Text} (h : make full package = .ok c)
    (hp : (ClassName.mk full package).package? = some p) : p ++ ['.'] <+: full := by
  unfold make at h
  split at h
  · simp at h
  rw [hp] at h
  dsimp only at h
  split at h
  · exact List.isPrefixOf_iff_prefix.mp ‹_›
  · simp at h

/-- A full name is the package, if there is one, and the classes, with dots between. -/
theorem OfWords.fullNameOf (h : c.OfWords) : Outline.fullNameOf c.package c.classPath = c.fullName := by
  have hcounts := h.package?
  rw [classPath, hcounts]
  rcases hp : c.package with _ | p
  · exact Text.join_splitOn '.' c.fullName
  · obtain ⟨rest, hrest⟩ := prefix_of_make h.accepted (hcounts.trans hp)
    have hdrop : c.fullName.drop (p.length + 1) = rest := by
      rw [← hrest, List.drop_left' (by simp)]
    dsimp only
    rw [hdrop, Outline.fullNameOf, Text.join_splitOn, ← hrest]
    simp [Outline.Kotlin.qualify]

theorem classPath_ne_nil (c : ClassName) : c.classPath ≠ [] := by
  unfold classPath
  split <;> exact Text.splitOn_ne_nil '.' _

/-- The names that lead to a class file tell the class. -/
theorem OfWords.ofFileNames_fileNames (h : c.OfWords) : ofFileNames c.fileNames = c := by
  have hclasses : Text.splitOn '$' (Text.join ['$'] c.classPath) = c.classPath :=
    Text.splitOn_join c.classPath_ne_nil fun s hs => (h.classes s hs).not_mem (by decide +kernel)
  have hfile : c.fileNames.getLastD [] = Text.join ['$'] c.classPath ++ Artifact.classSuffix := by
    rw [fileNames, List.getLastD_concat]
  have hpackage : c.fileNames.dropLast = c.segments := by
    rw [fileNames, List.dropLast_concat]
  simp only [ofFileNames, hfile, hpackage, h.packageOf_segments, List.length_append, Nat.add_sub_cancel,
    List.take_left, hclasses, h.fullNameOf]

/-! ## Class files -/

/-- The classes of a class file have no mark in them but dollar signs. -/
theorem OfWords.mem_classes (h : c.OfWords) {a : Char} (ha : a ∈ Text.join ['$'] c.classPath) :
    a = '$' ∨ isWordChar a = true := by
  rcases Text.mem_join ha with ha | ⟨s, hs, ha⟩
  · exact .inl (List.mem_singleton.mp ha)
  · exact .inr ((h.classes s hs).2 a ha)

/-- Entries can have the names of a class file. -/
theorem OfWords.isName (h : c.OfWords) : ∀ n ∈ c.fileNames, Path.IsName n := by
  intro n hn
  rcases List.mem_append.mp hn with hn | hn
  · exact (h.segments n hn).isName
  obtain rfl := List.mem_singleton.mp hn
  have hlong : 6 ≤ (Text.join ['$'] c.classPath ++ Artifact.classSuffix).length := by
    rw [List.length_append]
    exact Nat.le_add_left 6 _
  refine ⟨⟨fun heq => ?_, fun heq => ?_, fun hslash => ?_⟩, fun heq => ?_⟩
  · rw [heq] at hlong
    exact absurd hlong (by decide)
  · rw [heq] at hlong
    exact absurd hlong (by decide)
  · rcases List.mem_append.mp hslash with hslash | hslash
    · exact (h.mem_classes hslash).elim (by decide) (by decide +kernel)
    · exact absurd hslash (by decide)
  · rw [heq] at hlong
    exact absurd hlong (by decide)

/-- The characters of the path of a class file are those of words, and the marks that they are joined
with. -/
theorem OfWords.mem_path (h : c.OfWords) {a : Char} (ha : a ∈ Text.join ['/'] c.fileNames) :
    isWordChar a = true ∨ a = '/' ∨ a = '$' ∨ a = '.' := by
  rcases Text.mem_join ha with ha | ⟨n, hn, ha⟩
  · exact .inr (.inl (List.mem_singleton.mp ha))
  rcases List.mem_append.mp hn with hn | hn
  · exact .inl ((h.segments n hn).2 a ha)
  obtain rfl := List.mem_singleton.mp hn
  rcases List.mem_append.mp ha with ha | ha
  · exact (h.mem_classes ha).symm.imp_right fun hdollar => .inr (.inl hdollar)
  · have hall : Artifact.classSuffix.all (fun a => isWordChar a || decide (a = '.')) = true := by decide +kernel
    have hsuffix : ∀ a ∈ Artifact.classSuffix, isWordChar a = true ∨ a = '.' := by
      simpa only [List.all_eq_true, Bool.or_eq_true, decide_eq_true_eq] using hall
    exact (hsuffix a ha).imp_right fun hdot => .inr (.inr hdot)

/-- Every class has a class file, which its names lead to. -/
theorem OfWords.classFile (h : c.OfWords) (outputRoot : Path) :
    Artifact.classFile outputRoot c.internalName = .ok (outputRoot.descend c.fileNames) := by
  have hne : c.fileNames ≠ [] := List.concat_ne_nil _ _
  have hblank : ∀ a ∈ Text.join ['/'] c.fileNames, isBlank a = false := by
    intro a ha
    rcases h.mem_path ha with hword | rfl | rfl | rfl
    · exact not_isBlank_of_isWordChar hword
    · decide
    · decide
    · decide
  have hslash : '\\' ∉ Text.join ['/'] c.fileNames := fun hmem => by
    rcases h.mem_path hmem with hword | heq | heq | heq
    · exact absurd hword (by decide +kernel)
    all_goals exact absurd heq (by decide)
  have hdrive : Artifact.hasDrive (Text.join ['/'] c.fileNames) = false := by
    rw [← Bool.not_eq_true]
    intro hdrive
    rcases h.mem_path (Artifact.mem_of_hasDrive hdrive) with hword | heq | heq | heq
    · exact absurd hword (by decide +kernel)
    all_goals exact absurd heq (by decide)
  have hclean : Artifact.cleaned (Text.join ['/'] c.fileNames) = Text.join ['/'] c.fileNames := by
    rw [Artifact.cleaned, Text.replaceChar_of_not_mem hslash, Text.trim_eq_self hblank]
  rw [Artifact.classFile, internalName_append, Artifact.locate,
    Artifact.namesOf_join hne h.isName hclean hdrive]
  rfl

/-- Classes are told apart by their files. Every class whose segments are words has a class file, no other
such class has the same one, and where names lead from the project root to the output directory it has
a key from which the class can be told, with its package, its classes and its full name. -/
theorem classFile_tells (outputRoot : Path) (h : c.OfWords) :
    ∃ p, Artifact.classFile outputRoot c.internalName = .ok p
      ∧ (∀ d : ClassName, d.OfWords → Artifact.classFile outputRoot d.internalName = .ok p → d = c)
      ∧ (∀ (root : Path) (dirs : List Text), (∀ n ∈ dirs, Path.IsPiece n) → outputRoot = root.descend dirs →
        ∃ key, p.key root = .ok key ∧ ofKey dirs key = c)
      ∧ c.fullName = Outline.fullNameOf c.package c.classPath := by
  refine ⟨_, h.classFile outputRoot, fun d hd hfile => ?_, fun root dirs hdirs hout => ?_,
    h.fullNameOf.symm⟩
  · rw [hd.classFile outputRoot] at hfile
    have hnames : d.fileNames = c.fileNames :=
      List.append_cancel_left (Path.mk.inj (Except.ok.inj hfile)).2
    rw [← hd.ofFileNames_fileNames, hnames, h.ofFileNames_fileNames]
  · have hpieces : ∀ n ∈ dirs ++ c.fileNames, Path.IsPiece n :=
      List.forall_mem_append.mpr ⟨hdirs, fun n hn => (h.isName n hn).1⟩
    have hne : dirs ++ c.fileNames ≠ [] :=
      List.append_ne_nil_of_right_ne_nil dirs (List.concat_ne_nil _ _)
    refine ⟨Text.join ['/'] (dirs ++ c.fileNames), ?_, ?_⟩
    · rw [hout, Path.descend_descend, Path.key_descend root hne hpieces]
    · rw [ofKey, Path.namesIn_join hpieces, List.drop_left, h.ofFileNames_fileNames]

/-- A nested class of a package. -/
def smallClass : ClassName := ⟨"a.b_2.Äpfel.Kern".toList, some "a.b_2".toList⟩

theorem smallClass_ofWords : smallClass.OfWords where
  accepted := by decide +kernel
  package := by
    rintro p ⟨⟩
    decide +kernel
  classes := by decide +kernel

theorem classFile_tells_small : smallClass.OfWords
    ∧ smallClass.internalName = "a/b_2/Äpfel$Kern".toList
    ∧ ∃ p, Artifact.classFile Artifact.smallOut smallClass.internalName = .ok p
      ∧ ∃ key, p.key ⟨.root, ["p".toList]⟩ = .ok key ∧ ofKey ["bin".toList] key = smallClass := by
  obtain ⟨p, hp, -, hkey, -⟩ := classFile_tells Artifact.smallOut smallClass_ofWords
  exact ⟨smallClass_ofWords, by decide +kernel, p, hp,
    hkey ⟨.root, ["p".toList]⟩ ["bin".toList] (by decide) rfl⟩

end ClassName

end Provenance
