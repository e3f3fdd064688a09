/-
Places of keywords.

A declaration tells the line that it begins on, and not where on the line its keyword stands. The readers
of a line return what is left of it, which is always an end of the line; so the place of a word is known
from how much is left of the line where it begins, and from the place where the line begins.

What stands in such a place of a masked text stands there in the source as well: a keyword has no blanks,
and whatever is not blank in the mask is kept.
-/
import Provenance.Proofs.Outline.Masked

set_option autoImplicit false

namespace Provenance

variable {t u w : Text}

/-! ## Where lines begin -/

namespace Text

/-- The lines of a text that itself begins at place `k`, each with the place that it begins at. -/
def linesFrom : Nat → Text → List (Nat × Text)
  | _, [] => []
  | k, '\r' :: '\n' :: rest => (k, []) :: linesFrom (k + 2) rest
  | k, c :: rest =>
    if isLineBreak c then (k, []) :: linesFrom (k + 1) rest
    else match linesFrom (k + 1) rest with
      | [] => [(k, [c])]
      | (_, line) :: lines => (k, c :: line) :: lines

theorem map_snd_linesFrom (k : Nat) (t : Text) : (linesFrom k t).map Prod.snd = splitLines t := by
  fun_induction linesFrom k t with
  | case1 => rfl
  | case2 k t ih => exact congrArg _ ih
  | case3 k c t hpair hbreak ih =>
    rw [splitLines_break hbreak fun hc v ht => hpair v hc ht, ← ih]
    rfl
  | case4 k c t hpair hbreak hnil ih =>
    rw [hnil] at ih
    rw [splitLines_cons (Bool.eq_false_iff.mpr hbreak), ← ih]
    rfl
  | case5 k c t hpair hbreak start line lines hlines ih =>
    rw [hlines] at ih
    rw [splitLines_cons (Bool.eq_false_iff.mpr hbreak), ← ih]
    rfl

/-- The first line begins where the text does. -/
theorem start_of_linesFrom {k start : Nat} {line : Text} {lines : List (Nat × Text)}
    (h : linesFrom k t = (start, line) :: lines) : start = k := by
  unfold linesFrom at h
  split at h
  · exact absurd h.symm (List.cons_ne_nil _ _)
  · exact (Prod.mk.inj (List.cons.inj h).1).1.symm
  · split at h
    · exact (Prod.mk.inj (List.cons.inj h).1).1.symm
    · split at h <;> exact (Prod.mk.inj (List.cons.inj h).1).1.symm

/-- A line stands in the text where it begins, and behind it the text ends or a character ends the
line. -/
theorem exists_break_of_mem_linesFrom {k start : Nat} {line : Text} (h : (start, line) ∈ linesFrom k t) :
    ∃ before later, t = before ++ line ++ later ∧ start = k + before.length
      ∧ ∀ c ∈ later.head?, isLineBreak c = true := by
  fun_induction linesFrom k t generalizing start line with
  | case1 => exact absurd h List.not_mem_nil
  | case2 k t ih =>
    rcases List.mem_cons.mp h with heq | h
    · obtain ⟨rfl, rfl⟩ := Prod.mk.inj heq
      exact ⟨[], _, rfl, rfl, by simp [isLineBreak]⟩
    · obtain ⟨before, later, rfl, rfl, hbreak⟩ := ih h
      exact ⟨'\r' :: '\n' :: before, later, rfl, by simp only [List.length_cons]; omega, hbreak⟩
  | case3 k c t hpair hbreak ih =>
    rcases List.mem_cons.mp h with heq | h
    · obtain ⟨rfl, rfl⟩ := Prod.mk.inj heq
      exact ⟨[], _, rfl, rfl, by simpa using hbreak⟩
    · obtain ⟨before, later, rfl, rfl, hlater⟩ := ih h
      exact ⟨c :: before, later, rfl, by simp only [List.length_cons]; omega, hlater⟩
  | case4 k c t hpair hbreak hnil ih =>
    -- what has no lines is empty
    have hempty : t = [] := by
      by_contra hne
      exact splitLines_ne_nil hne (by rw [← map_snd_linesFrom (k + 1) t, hnil]; rfl)
    obtain ⟨rfl, rfl⟩ := Prod.mk.inj (List.mem_singleton.mp h)
    exact ⟨[], t, rfl, rfl, by simp [hempty]⟩
  | case5 k c t hpair hbreak first line' lines hlines ih =>
    rw [hlines] at ih
    rcases List.mem_cons.mp h with heq | h
    · obtain ⟨rfl, rfl⟩ := Prod.mk.inj heq
      -- the character goes before the line that begins behind it
      obtain rfl := start_of_linesFrom hlines
      obtain ⟨before, later, rfl, hbefore, hlater⟩ := ih List.mem_cons_self
      obtain rfl : before = [] := List.eq_nil_of_length_eq_zero (by omega)
      exact ⟨[], later, rfl, rfl, hlater⟩
    · obtain ⟨before, later, rfl, rfl, hlater⟩ := ih (List.mem_cons_of_mem _ h)
      exact ⟨c :: before, later, rfl, by simp only [List.length_cons]; omega, hlater⟩

end Text

namespace Outline

variable {name line : Text} {header : Header}

/-! ## What readers leave -/

instance : @Trans Text Text Text (· <:+ ·) (· <:+ ·) (· <:+ ·) := ⟨List.IsSuffix.trans⟩

theorem eq_append_of_after? {p : Text} (h : Text.after? p t = some u) : t = p ++ u := by
  fun_induction Text.after? p t with
  | case1 t => exact Option.some.inj h
  | case2 => exact absurd h (Option.some_ne_none u).symm
  | case3 p t c ih => exact congrArg _ (ih h)
  | case4 => exact absurd h (Option.some_ne_none u).symm

theorem suffix_of_skipBlanks? (h : skipBlanks? t = some u) : u <:+ t := by
  unfold skipBlanks? at h
  split at h
  · exact absurd h (Option.some_ne_none u).symm
  · split at h
    · exact Option.some.inj h ▸ (List.dropWhile_suffix _).trans (List.suffix_cons _ _)
    · exact absurd h (Option.some_ne_none u).symm

theorem suffix_of_takeIdent? (h : takeIdent? t = some (name, u)) : u <:+ t := by
  unfold takeIdent? at h
  split at h
  · exact absurd h (Option.some_ne_none _).symm
  · split at h
    · obtain ⟨-, rfl⟩ := Prod.mk.inj (Option.some.inj h)
      exact (List.dropWhile_suffix _).trans (List.suffix_cons _ _)
    · exact absurd h (Option.some_ne_none _).symm

theorem skipDotted_suffix (fuel : Nat) (t : Text) : skipDotted fuel t <:+ t := by
  fun_induction skipDotted fuel t with
  | case1 fuel rest name after hident ih =>
    exact ih.trans ((suffix_of_takeIdent? hident).trans (List.suffix_cons _ _))
  | case2 => exact List.suffix_rfl
  | case3 => exact List.suffix_rfl

theorem skipArguments_suffix (t : Text) : skipArguments t <:+ t := by
  fun_cases skipArguments t with
  | case1 => exact List.suffix_rfl
  | case2 rest c after hafter =>
    have hrest : c :: after <:+ rest := hafter ▸ List.dropWhile_suffix _
    exact (List.suffix_cons c after).trans (hrest.trans (List.suffix_cons _ _))
  | case3 => exact List.suffix_rfl

theorem suffix_of_skipAnnotations {fuel : Nat} (h : skipAnnotations fuel t = some u) : u <:+ t := by
  fun_induction skipAnnotations fuel t with
  | case1 fuel rest ih =>
    obtain ⟨⟨name, afterName⟩, hname, h⟩ := Option.bind_eq_some_iff.mp h
    obtain ⟨afterBlanks, hblanks, h⟩ := Option.bind_eq_some_iff.mp h
    calc u <:+ afterBlanks := ih afterBlanks h
      _ <:+ skipArguments (skipDotted afterName.length afterName) := suffix_of_skipBlanks? hblanks
      _ <:+ skipDotted afterName.length afterName := skipArguments_suffix _
      _ <:+ afterName := skipDotted_suffix _ _
      _ <:+ rest := suffix_of_takeIdent? hname
      _ <:+ '@' :: rest := List.suffix_cons _ _
  | case2 => exact Option.some.inj h ▸ List.suffix_rfl

theorem takeModifiers_suffix (fuel : Nat) (t : Text) : (takeModifiers fuel t).2 <:+ t := by
  fun_induction takeModifiers fuel t with
  | case1 => exact List.suffix_rfl
  | case2 fuel t w after hword ws rest hrest ih =>
    rw [hrest] at ih
    obtain ⟨word, -, hword⟩ := List.exists_of_findSome?_eq_some hword
    obtain ⟨left, hleft, heq⟩ := Option.map_eq_some_iff.mp hword
    obtain ⟨rfl, rfl⟩ := Prod.mk.inj heq
    obtain ⟨afterWord, hafter, hblanks⟩ := Option.bind_eq_some_iff.mp hleft
    calc rest <:+ left := ih
      _ <:+ afterWord := suffix_of_skipBlanks? hblanks
      _ <:+ t := ⟨word, (eq_append_of_after? hafter).symm⟩
  | case3 => exact List.suffix_rfl

/-! ## Words on a line -/

/-- What is left of a line where its keyword begins, if the line begins as one that declares something. -/
def fromKeyword? (line : Text) : Option Text :=
  (skipAnnotations line.length line.trimLeft).map fun t => (takeModifiers line.length t).2

theorem suffix_of_fromKeyword? (h : fromKeyword? line = some u) : u <:+ line := by
  obtain ⟨afterAnnotations, hannotations, rfl⟩ := Option.map_eq_some_iff.mp h
  calc (takeModifiers line.length afterAnnotations).2 <:+ afterAnnotations := takeModifiers_suffix _ _
    _ <:+ line.trimLeft := suffix_of_skipAnnotations hannotations
    _ <:+ line := List.dropWhile_suffix _

/-- A keyword is a word of its own. -/
theorem eq_append_of_takeKeyword? {keyword : Keyword} (h : takeKeyword? t = some (keyword, u)) :
    t = keyword.text ++ u ∧ ∀ c ∈ u.head?, isWordChar c = false := by
  obtain ⟨word, -, hword⟩ := List.exists_of_findSome?_eq_some h
  obtain ⟨after, hafter, hword⟩ := Option.bind_eq_some_iff.mp hword
  have hcut := eq_append_of_after? hafter
  split at hword
  · rename_i c rest
    split at hword
    · exact absurd hword (Option.some_ne_none _).symm
    · rename_i hc
      obtain ⟨rfl, rfl⟩ := Prod.mk.inj (Option.some.inj hword)
      exact ⟨hcut, by simpa using hc⟩
  · obtain ⟨rfl, rfl⟩ := Prod.mk.inj (Option.some.inj hword)
    exact ⟨hcut, by simp⟩

/-- Behind the keyword of a line, and the blanks after it, the line goes on with the name if there is one. -/
theorem behind_of_headerIn? (h : headerIn? line = some header) :
    ∃ after, fromKeyword? line = some (header.keyword.text ++ after)
      ∧ (∀ c ∈ after.head?, isWordChar c = false) ∧ header.name = identAt? after.trimLeft := by
  obtain ⟨afterAnnotations, hannotations, h⟩ := Option.bind_eq_some_iff.mp h
  obtain ⟨⟨keyword, afterKeyword⟩, hkeyword, h⟩ := Option.bind_eq_some_iff.mp h
  obtain ⟨hcut, hend⟩ := eq_append_of_takeKeyword? hkeyword
  have hleft : fromKeyword? line = some (keyword.text ++ afterKeyword) := by
    rw [← hcut, fromKeyword?, hannotations]
    rfl
  dsimp only at h
  split at h
  · rename_i hident
    obtain rfl := Option.some.inj h
    exact ⟨afterKeyword, hleft, hend, by rw [← map_fst_takeIdent?, hident]; rfl⟩
  · rename_i hident
    obtain rfl := Option.some.inj h
    exact ⟨afterKeyword, hleft, hend, by rw [← map_fst_takeIdent?, hident]; rfl⟩

theorem fromKeyword?_of_headerIn? (h : headerIn? line = some header) :
    ∃ u, fromKeyword? line = some u ∧ u <:+ line ∧ header.keyword.text <+: u := by
  obtain ⟨after, hleft, -, -⟩ := behind_of_headerIn? h
  exact ⟨_, hleft, suffix_of_fromKeyword? hleft, List.prefix_append _ _⟩

theorem package_prefix_of_packageIn? {p : Text} (h : packageIn? line = some p) :
    "package".toList <+: line.trimLeft := by
  obtain ⟨after, hafter, -⟩ := Option.bind_eq_some_iff.mp h
  exact ⟨after, (eq_append_of_after? hafter).symm⟩

/-! ## Places -/

/-- The place in a text of what is left of a line that begins at `start`. -/
def placeOf (start : Nat) (line rest : Text) : Nat := start + (line.length - rest.length)

/-- In the place of what is left of a line the text goes on with that, and then ends the line. -/
theorem drop_placeOf {start : Nat} (hline : (start, line) ∈ Text.linesFrom 0 t) (hu : u <:+ line) :
    ∃ later, t.drop (placeOf start line u) = u ++ later ∧ ∀ c ∈ later.head?, isLineBreak c = true := by
  obtain ⟨before, later, rfl, rfl, hlater⟩ := Text.exists_break_of_mem_linesFrom hline
  obtain ⟨v, rfl⟩ := hu
  have hplace : placeOf (0 + before.length) (v ++ u) u = (before ++ v).length := by
    rw [placeOf, List.length_append, List.length_append]
    omega
  refine ⟨later, ?_, hlater⟩
  rw [hplace, List.append_assoc, List.append_assoc, ← List.append_assoc before, List.drop_left]

theorem prefix_drop_placeOf {start : Nat} (hline : (start, line) ∈ Text.linesFrom 0 t) (hu : u <:+ line)
    (hw : w <+: u) : w <+: t.drop (placeOf start line u) := by
  obtain ⟨later, hdrop, -⟩ := drop_placeOf hline hu
  rw [hdrop]
  exact hw.trans (List.prefix_append _ _)

namespace Kotlin

variable {d : Declaration} {package : Option Text} {scan : BraceScan}

/-- Where in a text the keyword of a declaration stands. -/
def keywordPlace? (t : Text) (d : Declaration) : Option Nat :=
  (Text.linesFrom 0 t)[d.startLine.toNat - 1]?.bind fun l => (fromKeyword? l.2).map (placeOf l.1 l.2)

/-- Where in a text the word stands behind which its package is named. -/
def packagePlace? (t : Text) : Option Nat :=
  ((Text.linesFrom 0 t).find? fun l => (packageIn? l.2).isSome).map fun l =>
    placeOf l.1 l.2 l.2.trimLeft

theorem keyword_suffix_kindOf (header : Header) : header.keyword.text <:+ kindOf header := by
  unfold kindOf
  split
  · exact (List.suffix_cons _ _).trans (List.suffix_append _ _)
  · exact List.suffix_rfl

theorem exists_header_of_mem_declarationsFrom {line : Nat} {opened : List OpenBody} {lines : List Text}
    {depths : List Nat} (hd : d ∈ declarationsFrom package scan line opened lines depths) :
    ∃ (n : Nat) (text : Text) (header : Header), lines[n]? = some text ∧ headerIn? text = some header
      ∧ d.startLine = line + n ∧ d.kind = kindOf header := by
  obtain ⟨n, text, header, _, _, _, htext, hheader, rfl⟩ := exists_declarationAt_of_mem hd
  exact ⟨n, text, header, htext, hheader, by simp [declarationAt], rfl⟩

/-- The keyword of a declaration stands in its place, and names its kind. -/
theorem keywordPlace?_of_mem (hd : d ∈ declarationsOf t) : ∃ (k : Nat) (word : Keyword),
    keywordPlace? t d = some k ∧ word.text <+: t.drop k ∧ word.text <:+ d.kind := by
  obtain ⟨n, line, header, hline, hheader, hstart, hkind⟩ := exists_header_of_mem_declarationsFrom hd
  obtain ⟨rest, hrest, hsuffix, hword⟩ := fromKeyword?_of_headerIn? hheader
  rw [← Text.map_snd_linesFrom 0 t, List.getElem?_map] at hline
  obtain ⟨⟨start, line⟩, hplaced, rfl⟩ := Option.map_eq_some_iff.mp hline
  have hnumber : d.startLine.toNat - 1 = n := by omega
  refine ⟨placeOf start line rest, header.keyword, ?_, ?_, hkind ▸ keyword_suffix_kindOf header⟩
  · rw [keywordPlace?, hnumber, hplaced]
    exact congrArg (Option.map (placeOf start line)) hrest
  · exact prefix_drop_placeOf (List.mem_of_getElem? hplaced) hsuffix hword

theorem packagePlace?_of_package {p : Text} (h : t.splitLines.findSome? packageIn? = some p) :
    ∃ k, packagePlace? t = some k ∧ "package".toList <+: t.drop k := by
  obtain ⟨line, hline, hp⟩ := List.exists_of_findSome?_eq_some h
  rw [← Text.map_snd_linesFrom 0 t] at hline
  obtain ⟨placed, hplaced, rfl⟩ := List.mem_map.mp hline
  have hsome : ((Text.linesFrom 0 t).find? fun l => (packageIn? l.2).isSome).isSome = true :=
    List.find?_isSome.mpr ⟨placed, hplaced, by rw [hp]; rfl⟩
  obtain ⟨⟨start, line⟩, hfirst⟩ := Option.isSome_iff_exists.mp hsome
  have hfound := List.find?_some hfirst
  obtain ⟨_, hpackage⟩ := Option.isSome_iff_exists.mp hfound
  exact ⟨placeOf start line line.trimLeft, congrArg _ hfirst,
    prefix_drop_placeOf (List.mem_of_find?_eq_some hfirst) (List.dropWhile_suffix _)
      (package_prefix_of_packageIn? hpackage)⟩

end Kotlin

/-! ## Places of the mask -/

theorem drop_maskFrom (r : MaskRules) (region : Region) (skip run k : Nat) (t : Text) :
    ∃ (region' : Region) (skip' run' : Nat),
      (maskFrom r region skip run t).drop k = maskFrom r region' skip' run' (t.drop k) := by
  induction t generalizing region skip run k with
  | nil => exact ⟨.code, 0, 0, by simp [maskFrom]⟩
  | cons c t ih =>
    cases k with
    | zero => exact ⟨region, skip, run, rfl⟩
    | succ k =>
      obtain ⟨c', region', skip', run', -, hstep⟩ := maskFrom_cons r region skip run c t
      rw [hstep, List.drop_succ_cons, List.drop_succ_cons]
      exact ih region' skip' run' k

/-- A word that stands in the mask stands in the same place of the source. -/
theorem prefix_drop_of_mask {rules : MaskRules} {k : Nat} (hw : Solid w)
    (h : w <+: (mask rules t).drop k) : w <+: t.drop k := by
  obtain ⟨region, skip, run, hdrop⟩ := drop_maskFrom rules.prepared .code 0 0 k t
  rw [mask, hdrop] at h
  exact prefix_of_maskFrom hw h

end Outline

end Provenance
