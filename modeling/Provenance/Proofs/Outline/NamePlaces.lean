/-
Places of names.

Where in a text the name of a declaration stands is known as the place of its keyword is: by how much is left
of the line where the name begins. That is behind the keyword and the blanks after it. Of the package there is
a place for each of its segments.

A name is read from a line of the mask, and it is the identifier that the source begins with in that place. A
marker of a comment or a string, which is blanked, does not go on an identifier (`takeWhile_maskFrom`), and
neither does what ends a line; so the identifier ends in the one where it ends in the other.
-/
import Provenance.Proofs.Outline.Places

set_option autoImplicit false

namespace Provenance.Outline

variable {r : MaskRules} {region : Region} {skip run : Nat} {t name line rest : Text}

/-! ## Names in a mask -/

theorem not_isIdentPart_of_isLineBreak {c : Char} (h : isLineBreak c = true) : isIdentPart c = false := by
  simp only [isLineBreak, Bool.or_eq_true, decide_eq_true_eq] at h
  rcases h with ((((((((rfl | rfl) | rfl) | rfl) | rfl) | rfl) | rfl) | rfl) | rfl) | rfl <;> decide

/-- In code the mask goes on as the source does with characters that neither are blank nor begin a marker. -/
theorem takeWhile_maskFrom_code {p : Char → Bool} (hblank : p ' ' = false)
    (hopen : ∀ m ∈ r.openings, m.head?.any (!p ·) = true) (run : Nat) (t : Text) :
    (maskFrom r .code 0 run t).takeWhile p = t.takeWhile p := by
  induction t generalizing run with
  | nil => rw [maskFrom]
  | cons c t ih =>
    by_cases hc : p c = true
    · have hnone : r.opening? (c :: t) = none := by
        refine opening?_eq_none_iff.mpr fun m hm => Bool.eq_false_iff.mpr fun hstart => ?_
        have hhead := hopen m hm
        cases m with
        | nil => exact Bool.noConfusion hhead
        | cons a m =>
          rw [(List.cons_prefix_cons.mp (List.isPrefixOf_iff_prefix.mp hstart)).1] at hhead
          simp [hc] at hhead
      simp only [maskFrom, hnone, List.takeWhile_cons_of_pos hc, ih]
    · obtain ⟨c', _, _, _, hc', hstep⟩ := maskFrom_cons r .code 0 run c t
      have hstop : ¬p c' = true := by
        rcases hc' with rfl | rfl
        · exact hc
        · simp [hblank]
      rw [hstep, List.takeWhile_cons_of_neg hstop, List.takeWhile_cons_of_neg hc]

/-- So it does wherever it does not show a blank. -/
theorem takeWhile_maskFrom {p : Char → Bool} (hblank : p ' ' = false) (hfeed : p '\n' = false)
    (hopen : ∀ m ∈ r.openings, m.head?.any (!p ·) = true)
    (hkept : (maskFrom r region skip run t).head? ≠ some ' ') :
    (maskFrom r region skip run t).takeWhile p = t.takeWhile p := by
  cases t with
  | nil => rw [maskFrom]
  | cons c t =>
    obtain ⟨c', _, _, _, hc', hstep⟩ := maskFrom_cons r region skip run c t
    have hne : c' ≠ ' ' := fun h => hkept (by rw [hstep, h]; rfl)
    obtain rfl := hc'.resolve_right hne
    by_cases hc : c' = '\n'
    · have hstop : ¬p c' = true := by simp [hc, hfeed]
      rw [hstep, List.takeWhile_cons_of_neg hstop, List.takeWhile_cons_of_neg hstop]
    · obtain ⟨rfl, rfl⟩ := inCode_of_kept ⟨hne, hc⟩ hstep
      exact takeWhile_maskFrom_code hblank hopen run (c' :: t)

/-- What is left of a line of the mask begins with the identifier that the source begins with there, if it does
not begin with a blank. -/
theorem identAt?_drop_placeOf {start : Nat} (hline : (start, line) ∈ Text.linesFrom 0 (mask .kotlin t))
    (hrest : rest <:+ line) (hblank : ∀ c ∈ rest.head?, isBlank c = false) :
    identAt? (t.drop (placeOf start line rest)) = identAt? rest := by
  obtain ⟨later, hdrop, hlater⟩ := drop_placeOf hline hrest
  obtain ⟨region, skip, run, hmask⟩ :=
    drop_maskFrom MaskRules.kotlin.prepared .code 0 0 (placeOf start line rest) t
  rw [← mask, hdrop] at hmask
  -- the mask shows no blank in the place: the line goes on there, or it ends
  have hkept : (rest ++ later).head? ≠ some ' ' := by
    intro hhead
    cases rest with
    | nil => exact absurd (hlater ' ' hhead) (by decide)
    | cons c rest => exact absurd (hblank ' ' hhead) (by decide)
  have hstop : later.takeWhile isIdentPart = [] := by
    cases later with
    | nil => rfl
    | cons c later =>
      exact List.takeWhile_cons_of_neg (by simp [not_isIdentPart_of_isLineBreak (hlater c rfl)])
  refine identAt?_congr ?_
  rw [← takeWhile_maskFrom (by decide) (by decide) (by decide) (hmask ▸ hkept), ← hmask,
    List.takeWhile_append, hstop, List.append_nil]
  split
  · rename_i hlength
    exact ((List.takeWhile_prefix isIdentPart).eq_of_length hlength).symm
  · rfl

namespace Kotlin

variable {d : Declaration} {header : Header}

/-! ## Names of declarations -/

/-- What is left of a line behind its keyword and the blanks after that: it begins with the name, if there
is one. -/
def fromName? (line : Text) : Option Text :=
  (fromKeyword? line).map fun t => Text.trimLeft (t.dropWhile isWordChar)

/-- Where in a text the name of a declaration begins, or would begin if it had one. -/
def namePlace? (t : Text) (d : Declaration) : Option Nat :=
  (Text.linesFrom 0 t)[d.startLine.toNat - 1]?.bind fun l => (fromName? l.2).map (placeOf l.1 l.2)

theorem isWordChar_keyword (word : Keyword) : ∀ c ∈ word.text, isWordChar c = true := by
  refine List.all_eq_true.mp ?_
  cases word <;> decide

theorem fromName?_of_headerIn? (h : headerIn? line = some header) :
    ∃ u, fromName? line = some u ∧ u <:+ line ∧ (∀ c ∈ u.head?, isBlank c = false)
      ∧ header.name = identAt? u := by
  obtain ⟨after, hleft, hend, hname⟩ := behind_of_headerIn? h
  have hdrop : (header.keyword.text ++ after).dropWhile isWordChar = after := by
    rw [List.dropWhile_append_of_pos (isWordChar_keyword header.keyword)]
    cases after with
    | nil => rfl
    | cons c after => exact List.dropWhile_cons_of_neg (by simp [hend c rfl])
  refine ⟨after.trimLeft, by rw [fromName?, hleft, Option.map_some, hdrop], ?_, fun c hc => ?_, hname⟩
  · exact (List.dropWhile_suffix _).trans
      ((List.suffix_append _ _).trans (suffix_of_fromKeyword? hleft))
  · have hhead := List.head?_dropWhile_not isBlank after
    rw [Text.trimLeft] at hc
    rwa [Option.mem_def.mp hc] at hhead

/-- Where no name is read, only a companion has one. -/
theorem nameOf_eq (h : nameOf header = some name) : name = header.name.getD companionName := by
  unfold nameOf at h
  split at h
  · rename_i given hgiven
    rw [hgiven]
    exact (Option.some.inj h).symm
  · rename_i hnone
    split at h
    · rw [hnone]
      exact (Option.some.inj h).symm
    · exact absurd h (Option.some_ne_none name).symm

/-- A declaration has a place for its name. If it has a full name, its name is read from the source there, or
it is a companion with none to read. -/
theorem namePlace?_of_mem (hd : d ∈ declarationsOf (mask .kotlin t)) :
    ∃ k, namePlace? (mask .kotlin t) d = some k
      ∧ (d.fullName ≠ none → d.name = (identAt? (t.drop k)).getD companionName) := by
  obtain ⟨n, line, header, around, later, depth, hline, hheader, hd⟩ := exists_declarationAt_of_mem hd
  obtain ⟨rest, hrest, hsuffix, hblank, hname⟩ := fromName?_of_headerIn? hheader
  rw [← Text.map_snd_linesFrom 0, List.getElem?_map] at hline
  obtain ⟨⟨start, line⟩, hplaced, rfl⟩ := Option.map_eq_some_iff.mp hline
  have hnumber : d.startLine.toNat - 1 = n := by
    rw [hd, declarationAt]
    dsimp only
    omega
  refine ⟨placeOf start line rest, ?_, fun hfull => ?_⟩
  · rw [namePlace?, hnumber, hplaced]
    exact congrArg (Option.map (placeOf start line)) hrest
  · obtain ⟨full, hfull⟩ := Option.ne_none_iff_exists'.mp hfull
    rw [hd] at hfull
    obtain ⟨given, hgiven, heq⟩ := nameOf_of_fullName hfull
    rw [identAt?_drop_placeOf (List.mem_of_getElem? hplaced) hsuffix hblank, ← hname, hd, heq]
    exact nameOf_eq hgiven

/-! ## Segments of the package -/

/-- The further segments of a dotted name, each with what is left of the text where it begins. -/
def segmentsFrom : Nat → Text → List (Text × Text)
  | 0, _ => []
  | fuel + 1, t =>
    match t.trimLeft with
    | '.' :: rest =>
      match takeIdent? (Text.trimLeft rest) with
      | some (segment, after) => (segment, Text.trimLeft rest) :: segmentsFrom fuel after
      | none => []
    | _ => []

/-- The segments of the package that a line names, each with what is left of the line where it begins. -/
def segmentsIn? (line : Text) : Option (List (Text × Text)) := do
  let afterWord ← Text.after? "package".toList line.trimLeft
  let first ← skipBlanks? afterWord
  let (segment, rest) ← takeIdent? first
  return (segment, first) :: segmentsFrom rest.length rest

/-- The segments of the package that a line names, each with its place in the text that has the line. -/
def segmentsAt? (l : Nat × Text) : Option (List (Text × Nat)) :=
  (segmentsIn? l.2).map (List.map fun s => (s.1, placeOf l.1 l.2 s.2))

/-- The segments of the package that a text names, each with its place. -/
def segmentsOf (t : Text) : List (Text × Nat) := ((Text.linesFrom 0 t).findSome? segmentsAt?).getD []

theorem map_fst_segmentsFrom (fuel : Nat) (t : Text) :
    (segmentsFrom fuel t).map Prod.fst = takeSegments fuel t := by
  fun_induction segmentsFrom fuel t with
  | case1 => rfl
  | case2 fuel t rest ht segment after hsegment ih =>
    rw [List.map_cons, ih, takeSegments, ht]
    simp only [hsegment]
  | case3 fuel t rest ht hnone =>
    rw [takeSegments, ht]
    simp only [hnone]
    rfl
  | case4 fuel t hno =>
    rw [takeSegments]
    split
    · rename_i rest ht
      exact absurd ht (hno rest)
    · rfl

theorem packageIn?_eq (line : Text) :
    packageIn? line = (segmentsIn? line).map fun ss => Text.join ['.'] (ss.map Prod.fst) := by
  unfold packageIn? segmentsIn?
  cases Text.after? "package".toList line.trimLeft with
  | none => rfl
  | some afterWord =>
    cases hblanks : skipBlanks? afterWord with
    | none => simp [hblanks]
    | some first =>
      cases hident : takeIdent? first with
      | none => simp [hblanks, hident]
      | some found => simp [hblanks, hident, map_fst_segmentsFrom]

theorem mem_segmentsFrom {s : Text × Text} {fuel : Nat} (hs : s ∈ segmentsFrom fuel t) :
    s.2 <:+ t ∧ identAt? s.2 = some s.1 := by
  fun_induction segmentsFrom fuel t with
  | case1 => exact absurd hs List.not_mem_nil
  | case2 fuel t rest ht segment after hsegment ih =>
    have hrest : Text.trimLeft rest <:+ t := calc
      Text.trimLeft rest <:+ rest := List.dropWhile_suffix _
      _ <:+ '.' :: rest := List.suffix_cons _ _
      _ <:+ t := ht ▸ List.dropWhile_suffix _
    rcases List.mem_cons.mp hs with rfl | hs
    · exact ⟨hrest, by rw [← map_fst_takeIdent?, hsegment]; rfl⟩
    · obtain ⟨hsuffix, hident⟩ := ih hs
      exact ⟨hsuffix.trans ((suffix_of_takeIdent? hsegment).trans hrest), hident⟩
  | case3 => exact absurd hs List.not_mem_nil
  | case4 => exact absurd hs List.not_mem_nil

theorem mem_segmentsIn? {ss : List (Text × Text)} (h : segmentsIn? line = some ss) :
    ss ≠ [] ∧ ∀ s ∈ ss, s.2 <:+ line ∧ identAt? s.2 = some s.1 := by
  obtain ⟨afterWord, hafter, h⟩ := Option.bind_eq_some_iff.mp h
  obtain ⟨first, hfirst, h⟩ := Option.bind_eq_some_iff.mp h
  obtain ⟨⟨segment, rest⟩, hsegment, h⟩ := Option.bind_eq_some_iff.mp h
  obtain rfl := Option.some.inj h
  have hsuffix : first <:+ line := calc
    first <:+ afterWord := suffix_of_skipBlanks? hfirst
    _ <:+ line.trimLeft := ⟨_, (eq_append_of_after? hafter).symm⟩
    _ <:+ line := List.dropWhile_suffix _
  refine ⟨List.cons_ne_nil _ _, List.forall_mem_cons.mpr ⟨?_, fun s hs => ?_⟩⟩
  · exact ⟨hsuffix, by rw [← map_fst_takeIdent?, hsegment]; rfl⟩
  · obtain ⟨hrest, hident⟩ := mem_segmentsFrom hs
    exact ⟨hrest.trans ((suffix_of_takeIdent? hsegment).trans hsuffix), hident⟩

/-- The package of a text is its segments with dots between. -/
theorem package_eq (t : Text) :
    t.splitLines.findSome? packageIn? = packageOf ((segmentsOf t).map Prod.fst) := by
  have hline : packageIn? ∘ Prod.snd
      = Option.map (fun ss => Text.join ['.'] (ss.map Prod.fst)) ∘ segmentsAt? := by
    funext l
    simp [packageIn?_eq, segmentsAt?, Function.comp_def]
  rw [← Text.map_snd_linesFrom 0 t, List.findSome?_map, hline, ← List.map_findSome?, segmentsOf]
  rcases hfound : (Text.linesFrom 0 t).findSome? segmentsAt? with _ | ss
  · rfl
  · obtain ⟨l, -, hss⟩ := List.exists_of_findSome?_eq_some hfound
    obtain ⟨left, hleft, rfl⟩ := Option.map_eq_some_iff.mp hss
    obtain ⟨s, left, rfl⟩ := List.exists_cons_of_ne_nil (mem_segmentsIn? hleft).1
    rfl

/-- A segment of the package is read from the source in its place. -/
theorem identAt?_of_mem_segmentsOf {s : Text × Nat} (hs : s ∈ segmentsOf (mask .kotlin t)) :
    identAt? (t.drop s.2) = some s.1 := by
  rcases hfound : (Text.linesFrom 0 (mask .kotlin t)).findSome? segmentsAt? with _ | ss
  · rw [segmentsOf, hfound] at hs
    exact absurd hs List.not_mem_nil
  rw [segmentsOf, hfound] at hs
  obtain ⟨⟨start, line⟩, hline, hss⟩ := List.exists_of_findSome?_eq_some hfound
  obtain ⟨left, hleft, rfl⟩ := Option.map_eq_some_iff.mp hss
  obtain ⟨⟨segment, rest⟩, hmem, rfl⟩ := List.mem_map.mp hs
  obtain ⟨hsuffix, hident⟩ := (mem_segmentsIn? hleft).2 _ hmem
  exact (identAt?_drop_placeOf hline hsuffix (not_isBlank_head hident)).trans hident

end Kotlin

end Provenance.Outline
