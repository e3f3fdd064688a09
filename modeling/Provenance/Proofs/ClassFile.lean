/-
Names of class files.

The internal name of a class has no dots. They separate the names in its full name, and
are replaced by slashes and dollar signs. So the only dot in the path of a class file is
that of its ending, and of the names that the path is cut into only the last one has a
dot.
-/
import Provenance.Artifact
import Provenance.ClassName
import Provenance.Proofs.Path

set_option autoImplicit false

namespace Provenance

/-! ## Cutting and joining -/

/-- Where a character is only in what a text ends with, the pieces that have it end with that. -/
theorem Text.suffix_of_mem_splitOn {sep a : Char} {t ending : Text} (ht : a ∉ t)
    (hending : sep ∉ ending) : ∀ p ∈ Text.splitOn sep (t ++ ending), a ∈ p → ending <:+ p := by
  induction t with
  | nil =>
    intro p hp _
    rw [List.nil_append, Text.splitOn_of_not_mem hending, List.mem_singleton] at hp
    exact hp ▸ List.suffix_refl _
  | cons c t ih =>
    rw [List.mem_cons, not_or] at ht
    obtain ⟨hc, ht⟩ := ht
    have hrest := ih ht
    intro p hp ha
    rw [List.cons_append] at hp
    unfold Text.splitOn at hp
    split at hp
    · rcases List.mem_cons.mp hp with rfl | hp
      · simp at ha
      · exact hrest p hp ha
    · rcases hs : Text.splitOn sep (t ++ ending) with _ | ⟨q, qs⟩
      · rw [hs] at hp
        obtain rfl : p = [c] := by simpa using hp
        exact absurd (List.mem_singleton.mp ha) hc
      · rw [hs] at hp hrest
        rcases List.mem_cons.mp hp with rfl | hp
        · have haq : a ∈ q := (List.mem_cons.mp ha).resolve_left hc
          exact (hrest q (List.mem_cons_self ..) haq).trans (List.suffix_cons c q)
        · exact hrest p (List.mem_cons_of_mem _ hp) ha

/-! ## Internal names -/

/-- The internal name of a class has no dots. -/
theorem ClassName.dot_not_mem_internalName (c : ClassName) : '.' ∉ c.internalName := by
  have hclasses : '.' ∉ Text.join ['$'] c.classPath := by
    intro hdot
    rcases Text.mem_join hdot with h | ⟨t, ht, hdot⟩
    · simp at h
    · unfold ClassName.classPath at ht
      split at ht <;> exact Text.not_mem_of_mem_splitOn '.' _ t ht hdot
  unfold ClassName.internalName
  dsimp only
  split
  · exact hclasses
  · intro hdot
    rcases List.mem_append.mp hdot with hdot | hdot
    · rcases Text.mem_replaceChar hdot with h | ⟨h, -⟩
      · simp at h
      · exact h rfl
    · exact hclasses ((List.mem_cons.mp hdot).resolve_left (by simp))

/-! ## Paths of class files -/

namespace Artifact

/-- Reading a path leaves its ending, if it is that of class files, and adds no dots. -/
theorem cleaned_classFile {t : Text} (ht : '.' ∉ t) :
    ∃ t', '.' ∉ t' ∧ cleaned (t ++ classSuffix) = t' ++ classSuffix := by
  have hslashes : (t ++ classSuffix).replaceChar '\\' '/' = t.replaceChar '\\' '/' ++ classSuffix := by
    rw [Text.replaceChar, List.map_append]
    rfl
  have hleft : ∃ t', '.' ∉ t'
      ∧ Text.trimLeft (t.replaceChar '\\' '/' ++ classSuffix) = t' ++ classSuffix := by
    have hdot : '.' ∉ t.replaceChar '\\' '/' := by
      intro hdot
      rcases Text.mem_replaceChar hdot with h | ⟨-, h⟩
      · simp at h
      · exact ht h
    generalize t.replaceChar '\\' '/' = u at hdot
    -- the ending begins with a dot, which is no blank
    induction u with
    | nil => exact ⟨[], by simp, by decide +kernel⟩
    | cons c u ih =>
      have hu : '.' ∉ u := fun h => hdot (List.mem_cons_of_mem _ h)
      rw [Text.trimLeft, List.cons_append, List.dropWhile_cons]
      split
      · exact ih hu
      · exact ⟨c :: u, hdot, rfl⟩
  obtain ⟨t', ht', hleft⟩ := hleft
  refine ⟨t', ht', ?_⟩
  rw [cleaned, hslashes, Text.trim, hleft, Text.trimRight, Text.dropRightWhile, List.reverse_append]
  -- nor is it one that the ending ends with
  have hlast : isBlank 's' = false := by decide +kernel
  show ((['s', 's', 'a', 'l', 'c', '.'] ++ t'.reverse).dropWhile isBlank).reverse = _
  rw [List.cons_append, List.dropWhile_cons_of_neg (by simp [hlast]), ← List.cons_append,
    List.reverse_append, List.reverse_reverse]
  rfl

/-- Of the names that lead to a class file, those that have a dot have its ending. -/
theorem classFile_names {root p : Path} {c : ClassName} (h : classFile root c.internalName = .ok p) :
    ∃ names, p = root.descend names ∧ ∀ n ∈ names, '.' ∈ n → classSuffix <:+ n := by
  unfold classFile locate at h
  cases hn : namesOf (c.internalName ++ classSuffix) with
  | error e => simp [hn, Except.map] at h
  | ok names =>
    rw [hn] at h
    refine ⟨names, (Except.ok.inj h).symm, fun n hmem hdot => ?_⟩
    obtain ⟨t, ht, hclean⟩ := cleaned_classFile c.dot_not_mem_internalName
    obtain rfl : Path.namesIn (t ++ classSuffix) = names := by
      unfold namesOf at hn
      rw [hclean] at hn
      dsimp only at hn
      repeat' split at hn
      all_goals first | exact Except.ok.inj hn | simp at hn
    exact Text.suffix_of_mem_splitOn ht (by decide) n (List.mem_filter.mp hmem).1 hdot

end Artifact

end Provenance
