/-
Comments in comments.

Block comments of Kotlin nest: one that is opened inside another has to be closed before the other one
is. The mask knows of no depth. It takes the first closing marker for the end of the comment, whatever was
opened in between, and reads on from there as code.

So a text is read in two ways here. `marks` tells of every character what it belongs to, by a lexer that
counts how many comments are around; the mask is what the lexer without the count makes of the text. Up to
the first comment that is opened inside another the two go side by side, and what one takes for a part of a
comment is blank in the other. Behind it nothing can be said: what is left of the outer comment is read as
code, with the braces, the package and the declarations in it.
-/
import Provenance.Proofs.Outline.Lexer
import Provenance.Proofs.Outline.Places

set_option autoImplicit false

namespace Provenance.Outline

variable {t : Text} {k : Nat} {c : Char}

/-! ## Nested comments -/

/-- What a character belongs to. -/
inductive Mark where
  | code
  | literal
  | lineComment
  /-- a block comment, with the number of comments that are around it -/
  | blockComment (around : Nat)
  deriving DecidableEq, Repr

/-- The marks of the rest of a text, markers included. If it begins in a block comment, `around` others are
around that one. -/
def marksFrom : Nat → LexState → Text → List Mark
  | _, _, [] => []
  | _, .code, '/' :: '/' :: rest => .lineComment :: .lineComment :: marksFrom 0 .lineComment rest
  | _, .code, '/' :: '*' :: rest =>
    .blockComment 0 :: .blockComment 0 :: marksFrom 0 .blockComment rest
  | _, .code, '"' :: '"' :: '"' :: rest =>
    .literal :: .literal :: .literal :: marksFrom 0 .rawString rest
  | _, .code, c :: rest =>
    if c = '"' ∨ c = '\'' then .literal :: marksFrom 0 (.quoted c false) rest
    else .code :: marksFrom 0 .code rest
  | _, .lineComment, c :: rest =>
    if c = '\n' then .code :: marksFrom 0 .code rest
    else .lineComment :: marksFrom 0 .lineComment rest
  | around, .blockComment, '/' :: '*' :: rest =>
    .blockComment (around + 1) :: .blockComment (around + 1) :: marksFrom (around + 1) .blockComment rest
  | 0, .blockComment, '*' :: '/' :: rest => .blockComment 0 :: .blockComment 0 :: marksFrom 0 .code rest
  | around + 1, .blockComment, '*' :: '/' :: rest =>
    .blockComment (around + 1) :: .blockComment (around + 1) :: marksFrom around .blockComment rest
  | around, .blockComment, _ :: rest => .blockComment around :: marksFrom around .blockComment rest
  | _, .rawString, '"' :: '"' :: '"' :: rest =>
    .literal :: .literal :: .literal :: marksFrom 0 .code rest
  | _, .rawString, _ :: rest => .literal :: marksFrom 0 .rawString rest
  | _, .quoted quote escaped, c :: rest =>
    if c = quote ∧ escaped = false then .literal :: marksFrom 0 .code rest
    else .literal :: marksFrom 0 (.quoted quote (c = '\\' && !escaped)) rest

/-- What each character of a text belongs to, where block comments nest. -/
def marks (t : Text) : List Mark := marksFrom 0 .code t

/-- Place `k` lies in a comment. -/
def InComment (t : Text) (k : Nat) : Prop :=
  ∃ mark, (marks t)[k]? = some mark ∧ mark ≠ .code ∧ mark ≠ .literal

/-- Whether a mark is that of a comment with another one around it. -/
def Mark.isNested : Mark → Bool
  | .blockComment (_ + 1) => true
  | _ => false

/-- Before place `k` a comment is opened inside another. -/
def NestsBefore (t : Text) (k : Nat) : Prop := ∃ mark ∈ (marks t).take k, mark.isNested = true

/-! ## What the mask keeps -/

/-- What a text keeps is code by its marks, up to the first comment that is opened inside another. -/
inductive KeepsCode : Text → List Mark → Prop
  | nil : KeepsCode [] []
  | cons {c : Char} {mark : Mark} {t : Text} {ms : List Mark} (h : mark = .code ∨ c = ' ' ∨ c = '\n')
      (rest : KeepsCode t ms) : KeepsCode (c :: t) (mark :: ms)
  | nested {c : Char} {mark : Mark} (h : c = ' ' ∨ c = '\n') (hmark : mark.isNested = true) (t : Text)
      (ms : List Mark) : KeepsCode (c :: t) (mark :: ms)

theorem keepsCode_lexFrom (s : LexState) (t : Text) : KeepsCode (lexFrom s t) (marksFrom 0 s t) := by
  have hblank : ∀ {t ms} (mark : Mark), KeepsCode t ms → KeepsCode (' ' :: t) (mark :: ms) :=
    fun _ h => .cons (.inr (.inl rfl)) h
  fun_induction lexFrom s t with
  | case1 s =>
    rw [marksFrom]
    exact .nil
  | case2 rest ih => exact hblank _ (hblank _ ih)
  | case3 rest ih => exact hblank _ (hblank _ ih)
  | case4 rest ih => exact hblank _ (hblank _ (hblank _ ih))
  | case5 c rest hline hblock hraw hc ih =>
    rw [marksFrom, if_pos hc]
    · exact hblank _ ih
    all_goals assumption
  | case6 c rest hline hblock hraw hc ih =>
    rw [marksFrom, if_neg hc]
    · exact .cons (.inl rfl) ih
    all_goals assumption
  | case7 rest ih => exact .cons (.inl rfl) ih
  | case8 c rest hc ih =>
    rw [marksFrom, if_neg hc]
    exact hblank _ ih
  | case9 rest ih => exact hblank _ (hblank _ ih)
  | case10 c rest hc ih =>
    -- a comment may begin here, and then the lexer with the count goes a level deeper
    by_cases hopens : ∃ u, c = '/' ∧ rest = '*' :: u
    · obtain ⟨u, rfl, rfl⟩ := hopens
      rw [marksFrom]
      exact .nested (blankExceptBreak_cases _) rfl _ _
    · rw [marksFrom]
      · exact .cons (.inr (blankExceptBreak_cases c)) ih
      · exact fun v hslash hstar => hopens ⟨v, hslash, hstar⟩
      · exact fun v _ => hc v
      · exact fun _ v _ => hc v
  | case11 rest ih => exact hblank _ (hblank _ (hblank _ ih))
  | case12 c rest hc ih =>
    rw [marksFrom]
    · exact .cons (.inr (blankExceptBreak_cases c)) ih
    all_goals assumption
  | case13 quote escaped c rest hc ih =>
    rw [marksFrom, if_pos hc]
    exact hblank _ ih
  | case14 quote escaped c rest hc ih =>
    rw [marksFrom, if_neg hc]
    exact .cons (.inr (blankExceptBreak_cases c)) ih

theorem KeepsCode.code_or_nested {ms : List Mark} (h : KeepsCode t ms) (hk : t[k]? = some c)
    (hc : c ≠ ' ' ∧ c ≠ '\n') : ms[k]? = some .code ∨ ∃ mark ∈ ms.take k, mark.isNested = true := by
  induction h generalizing k with
  | nil => exact absurd hk (by simp)
  | cons h rest ih =>
    cases k with
    | zero =>
      obtain rfl := Option.some.inj hk
      exact .inl (congrArg some (h.resolve_right (not_or.mpr hc)))
    | succ k =>
      refine (ih hk).imp_right ?_
      rintro ⟨mark, hmark, hnested⟩
      exact ⟨mark, List.mem_cons_of_mem _ hmark, hnested⟩
  | nested hblank hnested t ms =>
    cases k with
    | zero =>
      obtain rfl := Option.some.inj hk
      exact absurd hblank (not_or.mpr hc)
    | succ k => exact .inr ⟨_, List.mem_cons_self, hnested⟩

/-- A character that the mask of a text keeps is code, unless it stands behind a nested comment. -/
theorem code_of_kept (hk : (mask .kotlin t)[k]? = some c) (hc : c ≠ ' ' ∧ c ≠ '\n') :
    (marks t)[k]? = some .code ∨ NestsBefore t k := by
  have hstart : Agrees [] .code .code := .code
  have hlex : mask .kotlin t = lexFrom .code t := by
    rw [mask, prepared_kotlin]
    exact maskFrom_eq_lexFrom hstart t
  rw [hlex] at hk
  exact (keepsCode_lexFrom .code t).code_or_nested hk hc

/-! ## What a place gives -/

namespace Kotlin

variable {u : SourceUnit}

/-- What place `k` of a masked text gives to its unit: a brace, the package, or a declaration. -/
inductive Gives (masked : Text) (u : SourceUnit) (k : Nat) : Prop
  | brace (c : Char) (h : c = '{' ∨ c = '}') (hk : masked[k]? = some c)
  | package (h : u.package ≠ none) (hk : packagePlace? masked = some k)
  | declaration (d : Declaration) (h : d ∈ u.declarations) (hk : keywordPlace? masked d = some k)

/-- Every declaration has its keyword in the text, in the place where the mask has it, and the package its
word. -/
structure InText (t : Text) (u : SourceUnit) : Prop where
  declarations : ∀ d ∈ u.declarations, ∃ (k : Nat) (word : Keyword),
    keywordPlace? (mask .kotlin t) d = some k ∧ word.text <+: t.drop k ∧ word.text <:+ d.kind
  package : u.package ≠ none →
    ∃ k, packagePlace? (mask .kotlin t) = some k ∧ "package".toList <+: t.drop k

theorem exists_kept {w : Text} (hne : w ≠ []) (hw : Solid w) (h : w <+: t.drop k) :
    ∃ c, t[k]? = some c ∧ c ≠ ' ' ∧ c ≠ '\n' := by
  obtain ⟨c, w, rfl⟩ := List.exists_cons_of_ne_nil hne
  obtain ⟨later, hlater⟩ := h
  have hfirst : (t.drop k)[0]? = some c := by
    rw [← hlater]
    rfl
  rw [List.getElem?_drop] at hfirst
  exact ⟨c, hfirst, hw c List.mem_cons_self⟩

theorem solid_keyword (word : Keyword) : word.text ≠ [] ∧ Solid word.text := by
  cases word <;> decide

/-- The declarations of a text are read from their keywords, the package from its word. -/
theorem inText_of_parse {path : Text} (h : parse path t = .ok u) : InText t u := by
  rw [parse_eq] at h
  obtain rfl := Except.ok.inj h
  constructor
  · intro d hd
    obtain ⟨k, word, hk, hword, hkind⟩ := keywordPlace?_of_mem hd
    exact ⟨k, word, hk, prefix_drop_of_mask (solid_keyword word).2 hword, hkind⟩
  · intro hne
    obtain ⟨p, hp⟩ := Option.ne_none_iff_exists'.mp hne
    obtain ⟨k, hk, hword⟩ := packagePlace?_of_package hp
    exact ⟨k, hk, prefix_drop_of_mask (by decide) hword⟩

/-- What gives something is kept by the mask. -/
theorem kept_of_gives {path : Text} (h : parse path t = .ok u) (hk : Gives (mask .kotlin t) u k) :
    ∃ c, (mask .kotlin t)[k]? = some c ∧ c ≠ ' ' ∧ c ≠ '\n' := by
  rw [parse_eq] at h
  obtain rfl := Except.ok.inj h
  cases hk with
  | brace c hc hk => exact ⟨c, hk, by rcases hc with rfl | rfl <;> decide⟩
  | package hne hk =>
    obtain ⟨p, hp⟩ := Option.ne_none_iff_exists'.mp hne
    obtain ⟨place, hplace, hword⟩ := packagePlace?_of_package hp
    obtain rfl := Option.some.inj (hplace.symm.trans hk)
    exact exists_kept (by decide) (by decide) hword
  | declaration d hd hk =>
    obtain ⟨place, word, hplace, hword, -⟩ := keywordPlace?_of_mem hd
    obtain rfl := Option.some.inj (hplace.symm.trans hk)
    exact exists_kept (solid_keyword word).1 (solid_keyword word).2 hword

/-- Every text has a unit whose declarations and package are read from words of the text; and where a
place in a comment gives a brace, the package or a declaration, a comment was opened inside another before.
A text in which none is, has nothing in its outline that is commented out. -/
theorem nests_of_gives_in_comment (path t : Text) : ∃ u, parse path t = .ok u ∧ InText t u
    ∧ ∀ k, InComment t k → Gives (mask .kotlin t) u k → NestsBefore t k := by
  refine ⟨_, parse_eq path t, inText_of_parse (parse_eq path t), fun k hcomment hgives => ?_⟩
  obtain ⟨c, hk, hc⟩ := kept_of_gives (parse_eq path t) hgives
  refine (code_of_kept hk hc).resolve_left fun hcode => ?_
  obtain ⟨mark, hmark, hne, -⟩ := hcomment
  exact hne (Option.some.inj (hmark.symm.trans hcode))

/-- A text with code in comments of all kinds, and a class behind them. -/
def plainComments : Text := "/* package p\n// \x7b */ // class A /*\nclass B\n".toList

/-- Nothing is read from the comments. -/
theorem ignored_in_plain_comments : ∃ u, parse "a.kt".toList plainComments = .ok u
    ∧ ∀ k, InComment plainComments k → ¬Gives (mask .kotlin plainComments) u k := by
  obtain ⟨u, hu, -, hnests⟩ := nests_of_gives_in_comment "a.kt".toList plainComments
  have hplain : ∀ mark ∈ marks plainComments, mark.isNested = false := by decide +kernel
  refine ⟨u, hu, fun k hcomment hgives => ?_⟩
  obtain ⟨mark, hmark, hnested⟩ := hnests k hcomment hgives
  exact Bool.eq_false_iff.mp (hplain mark (List.mem_of_mem_take hmark)) hnested

/-- A file that is commented out, with a comment in it. -/
def commentedOut : Text := "/*\n/* */\npackage dead\nclass Dead \x7b\n\x7d\n*/\n".toList

/-- The keyword of its class lies in the outer comment, and the class is declared. -/
theorem not_ignored_in_nested_comment : ¬∃ u, parse "a.kt".toList commentedOut = .ok u
    ∧ ∀ k, InComment commentedOut k → ¬Gives (mask .kotlin commentedOut) u k := by
  rintro ⟨u, hu, hignored⟩
  rw [parse_eq] at hu
  obtain rfl := Except.ok.inj hu
  obtain ⟨d, hd, hplace⟩ : ∃ d ∈ declarationsOf (mask .kotlin commentedOut),
      keywordPlace? (mask .kotlin commentedOut) d = some 22 := by decide +kernel
  exact hignored 22 ⟨.blockComment 0, by decide +kernel, by decide, by decide⟩ (.declaration d hd hplace)

end Kotlin

end Provenance.Outline
