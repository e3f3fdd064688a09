/-
The mask as a lexer.

The mask of a Kotlin source is found with tables of markers, and whether a quote ends a string is
told by counting the backslashes that stand directly before it, wherever they stand. A lexer for
such sources would go about it otherwise. It has five states, reads from left to right without
looking back, and in a string remembers in one bit whether the next character is escaped: an
unescaped backslash sets the bit, and whatever follows clears it.

The two are the same. What relates them at each place in the text is `Agrees`: the states
correspond, and in a string that ends with one character the bit is set exactly if an odd number
of backslashes is behind. The count cannot reach behind the beginning of the string, since a quote
stands there.
-/
import Provenance.Outline.Mask

set_option autoImplicit false

namespace Provenance.Outline

/-! ## The lexer -/

/-- What the lexer is in. -/
inductive LexState where
  | code
  | lineComment
  | blockComment
  /-- between three quotes -/
  | rawString
  /-- in a string that ends with a character; whether the next character is escaped -/
  | quoted (quote : Char) (escaped : Bool)
  deriving DecidableEq, Repr

/-- The rest of a text with the characters of comments and literals, markers included, as blanks. Line
feeds are kept, and so is everything else. -/
def lexFrom : LexState → Text → Text
  | _, [] => []
  | .code, '/' :: '/' :: rest => ' ' :: ' ' :: lexFrom .lineComment rest
  | .code, '/' :: '*' :: rest => ' ' :: ' ' :: lexFrom .blockComment rest
  | .code, '"' :: '"' :: '"' :: rest => ' ' :: ' ' :: ' ' :: lexFrom .rawString rest
  | .code, c :: rest =>
    if c = '"' ∨ c = '\'' then ' ' :: lexFrom (.quoted c false) rest
    else c :: lexFrom .code rest
  | .lineComment, c :: rest =>
    if c = '\n' then c :: lexFrom .code rest else ' ' :: lexFrom .lineComment rest
  | .blockComment, '*' :: '/' :: rest => ' ' :: ' ' :: lexFrom .code rest
  | .blockComment, c :: rest => blankExceptBreak c :: lexFrom .blockComment rest
  | .rawString, '"' :: '"' :: '"' :: rest => ' ' :: ' ' :: ' ' :: lexFrom .code rest
  | .rawString, c :: rest => blankExceptBreak c :: lexFrom .rawString rest
  | .quoted quote escaped, c :: rest =>
    if c = quote ∧ escaped = false then ' ' :: lexFrom .code rest
    else blankExceptBreak c :: lexFrom (.quoted quote (c = '\\' && !escaped)) rest

/-- The text with its comments and literals blanked. -/
def lex (t : Text) : Text := lexFrom .code t

/-! ## Counting backwards -/

/-- How many backslashes a text ends with. -/
def backslashes (t : Text) : Nat := (t.reverse.takeWhile (· = '\\')).length

theorem backslashes_concat (t : Text) (c : Char) :
    backslashes (t ++ [c]) = if c = '\\' then backslashes t + 1 else 0 := by
  rw [backslashes, List.reverse_concat, List.takeWhile_cons]
  by_cases hc : c = '\\'
  · rw [if_pos hc, if_pos (decide_eq_true hc), List.length_cons, backslashes]
  · rw [if_neg hc, if_neg (by simpa using hc), List.length_nil]

/-- Whether the number of backslashes is odd changes as the bit does that tells what is escaped. -/
theorem odd_backslashes_concat (t : Text) (c : Char) :
    decide (backslashes (t ++ [c]) % 2 = 1)
      = (decide (c = '\\') && !decide (backslashes t % 2 = 1)) := by
  rw [backslashes_concat]
  by_cases hc : c = '\\'
  · rw [if_pos hc, decide_eq_true hc, Bool.true_and, ← decide_not]
    exact decide_eq_decide.mpr (by omega)
  · rw [if_neg hc, decide_eq_false hc]
    rfl

/-! ## The mask, step by step

What the mask carries along is the number of backslashes that the text before it ends with. -/

section Steps

variable {c quote : Char} {m rest : Text} {inside : Region}

theorem prepared_kotlin : MaskRules.kotlin.prepared = .kotlin := by decide

theorem run_kotlin (before : Text) (c : Char) :
    (if [c] = MaskRules.kotlin.escape then backslashes before + 1 else 0)
      = backslashes (before ++ [c]) := by
  rw [backslashes_concat]
  by_cases hc : c = '\\'
  · rw [if_pos hc, hc]
    rfl
  · rw [if_neg hc, if_neg (by simpa [MaskRules.kotlin] using hc)]

theorem maskFrom_skip (region : Region) (k : Nat) (before : Text) (c : Char) (rest : Text) :
    maskFrom .kotlin region (k + 1) (backslashes before) (c :: rest)
      = ' ' :: maskFrom .kotlin region k (backslashes (before ++ [c])) rest := by
  rw [maskFrom, run_kotlin]

theorem maskFrom_opens (before : Text)
    (h : MaskRules.kotlin.opening? (c :: rest) = some (m, inside)) :
    maskFrom .kotlin .code 0 (backslashes before) (c :: rest)
      = ' ' :: maskFrom .kotlin inside (m.length - 1) (backslashes (before ++ [c])) rest := by
  rw [maskFrom, run_kotlin]
  simp only [h]

theorem maskFrom_code (before : Text) (h : MaskRules.kotlin.opening? (c :: rest) = none) :
    maskFrom .kotlin .code 0 (backslashes before) (c :: rest)
      = c :: maskFrom .kotlin .code 0 (backslashes (before ++ [c])) rest := by
  rw [maskFrom, run_kotlin]
  simp only [h]

theorem maskFrom_lineComment (before : Text) (c : Char) (rest : Text) :
    maskFrom .kotlin .lineComment 0 (backslashes before) (c :: rest)
      = if c = '\n' then c :: maskFrom .kotlin .code 0 (backslashes (before ++ [c])) rest
        else ' ' :: maskFrom .kotlin .lineComment 0 (backslashes (before ++ [c])) rest := by
  rw [maskFrom, run_kotlin]

theorem maskFrom_blockComment (closing before : Text) (c : Char) (rest : Text) :
    maskFrom .kotlin (.blockComment closing) 0 (backslashes before) (c :: rest)
      = if Text.startsWith (c :: rest) closing then
          ' ' :: maskFrom .kotlin .code (closing.length - 1) (backslashes (before ++ [c])) rest
        else blankExceptBreak c
          :: maskFrom .kotlin (.blockComment closing) 0 (backslashes (before ++ [c])) rest := by
  rw [maskFrom, run_kotlin]

theorem maskFrom_string (closing before : Text) (c : Char) (rest : Text) :
    maskFrom .kotlin (.string closing) 0 (backslashes before) (c :: rest)
      = if closesString closing (c :: rest) (backslashes before) then
          ' ' :: maskFrom .kotlin .code (closing.length - 1) (backslashes (before ++ [c])) rest
        else blankExceptBreak c
          :: maskFrom .kotlin (.string closing) 0 (backslashes (before ++ [c])) rest := by
  rw [maskFrom, run_kotlin]

/-! ## Markers -/

theorem startsWith_eq_false {t : Text} (h : ∀ u, t = m ++ u → False) : t.startsWith m = false := by
  rw [Bool.eq_false_iff]
  intro hm
  obtain ⟨u, hu⟩ := List.isPrefixOf_iff_prefix.mp hm
  exact h u hu.symm

/-- A quote opens a string that ends with it, unless it is the first of three. -/
theorem opening?_quote (hraw : ∀ u, c = '"' → rest = '"' :: '"' :: u → False)
    (hc : c = '"' ∨ c = '\'') :
    MaskRules.kotlin.opening? (c :: rest) = some ([c], .string [c]) := by
  rcases hc with rfl | rfl
  · have hno : Text.startsWith ('"' :: rest) ['"', '"', '"'] = false :=
      startsWith_eq_false fun u hu => hraw u rfl (List.cons.inj hu).2
    simp only [MaskRules.opening?, MaskRules.kotlin, List.find?_cons, hno]
    rfl
  · rfl

theorem opening?_code (hline : ∀ u, c = '/' → rest = '/' :: u → False)
    (hblock : ∀ u, c = '/' → rest = '*' :: u → False) (hc : ¬(c = '"' ∨ c = '\'')) :
    MaskRules.kotlin.opening? (c :: rest) = none := by
  rw [not_or] at hc
  have hno : ∀ m ∈ [['/', '/'], ['/', '*'], ['"', '"', '"'], ['"'], ['\'']],
      Text.startsWith (c :: rest) m = false := by
    intro m hm
    refine startsWith_eq_false fun u hu => ?_
    simp only [List.mem_cons, List.not_mem_nil, or_false] at hm
    rcases hm with rfl | rfl | rfl | rfl | rfl
    · exact hline u (List.cons.inj hu).1 (List.cons.inj hu).2
    · exact hblock u (List.cons.inj hu).1 (List.cons.inj hu).2
    · exact hc.1 (List.cons.inj hu).1
    · exact hc.1 (List.cons.inj hu).1
    · exact hc.2 (List.cons.inj hu).1
  simp only [List.forall_mem_cons] at hno
  simp [MaskRules.opening?, MaskRules.kotlin, hno]

/-- Three quotes are never escaped. -/
theorem closesString_raw (t : Text) (run : Nat) :
    closesString ['"', '"', '"'] t run = t.startsWith ['"', '"', '"'] := by
  rw [closesString]
  exact Bool.and_true _

/-- One character is, behind an odd number of backslashes. -/
theorem closesString_quote (quote c : Char) (rest : Text) (run : Nat) :
    closesString [quote] (c :: rest) run
      = decide (c = quote ∧ decide (run % 2 = 1) = false) := by
  have hodd : decide (run % 2 = 1) = false ↔ run % 2 = 0 := by
    rw [decide_eq_false_iff_not]
    omega
  have hstart : Text.startsWith (c :: rest) [quote] = decide (c = quote) := by
    by_cases hc : c = quote
    · simp [Text.startsWith, List.isPrefixOf, hc]
    · simp [Text.startsWith, List.isPrefixOf, hc, Ne.symm hc]
  rw [closesString, hstart, Bool.decide_and, decide_eq_decide.mpr hodd]
  rfl

end Steps

/-! ## The mask and the lexer -/

/-- The mask in a region with some text behind it does what the lexer does in a state. -/
inductive Agrees (before : Text) : Region → LexState → Prop
  | code : Agrees before .code .code
  | lineComment : Agrees before .lineComment .lineComment
  | blockComment : Agrees before (.blockComment ['*', '/']) .blockComment
  | rawString : Agrees before (.string ['"', '"', '"']) .rawString
  | quoted {quote : Char} {escaped : Bool} (h : escaped = decide (backslashes before % 2 = 1)) :
      Agrees before (.string [quote]) (.quoted quote escaped)

/-- From states that agree on, the mask is what the lexer makes of the text. The induction goes through
the text as the lexer does, a marker at a time. -/
theorem maskFrom_eq_lexFrom {before : Text} {region : Region} {s : LexState}
    (h : Agrees before region s) (t : Text) :
    maskFrom .kotlin region 0 (backslashes before) t = lexFrom s t := by
  fun_induction lexFrom s t generalizing region before with
  | case1 s => rw [maskFrom]
  | case2 rest ih =>
    cases h
    rw [maskFrom_opens (m := ['/', '/']) before rfl, ← ih .lineComment]
    exact congrArg _ (maskFrom_skip ..)
  | case3 rest ih =>
    cases h
    rw [maskFrom_opens (m := ['/', '*']) before rfl, ← ih .blockComment]
    exact congrArg _ (maskFrom_skip ..)
  | case4 rest ih =>
    cases h
    rw [maskFrom_opens (m := ['"', '"', '"']) before rfl, ← ih .rawString]
    exact congrArg _ ((maskFrom_skip ..).trans (congrArg _ (maskFrom_skip ..)))
  | case5 c rest hline hblock hraw hc ih =>
    -- a quote is no backslash, so none is behind where the string begins
    cases h
    have hquote : c ≠ '\\' := by
      rcases hc with rfl | rfl <;> decide
    have hnone : false = decide (backslashes (before ++ [c]) % 2 = 1) := by
      rw [backslashes_concat, if_neg hquote]
      rfl
    rw [maskFrom_opens before (opening?_quote hraw hc), ← ih (.quoted hnone)]
    rfl
  | case6 c rest hline hblock hraw hc ih =>
    cases h
    rw [maskFrom_code before (opening?_code hline hblock hc), ih .code]
  | case7 rest ih =>
    cases h
    rw [maskFrom_lineComment, if_pos rfl, ih .code]
  | case8 c rest hc ih =>
    cases h
    rw [maskFrom_lineComment, if_neg hc, ih .lineComment]
  | case9 rest ih =>
    cases h
    have hcloses : Text.startsWith ('*' :: '/' :: rest) ['*', '/'] = true := rfl
    rw [maskFrom_blockComment, if_pos hcloses, ← ih .code]
    exact congrArg _ (maskFrom_skip ..)
  | case10 c rest hc ih =>
    cases h
    have hno : Text.startsWith (c :: rest) ['*', '/'] = false :=
      startsWith_eq_false fun u hu => hc u (List.cons.inj hu).1 (List.cons.inj hu).2
    rw [maskFrom_blockComment, hno, if_neg Bool.false_ne_true, ih .blockComment]
  | case11 rest ih =>
    cases h
    have hcloses : Text.startsWith ('"' :: '"' :: '"' :: rest) ['"', '"', '"'] = true := rfl
    rw [maskFrom_string, closesString_raw, if_pos hcloses, ← ih .code]
    exact congrArg _ ((maskFrom_skip ..).trans (congrArg _ (maskFrom_skip ..)))
  | case12 c rest hc ih =>
    cases h
    have hno : Text.startsWith (c :: rest) ['"', '"', '"'] = false :=
      startsWith_eq_false fun u hu => hc u (List.cons.inj hu).1 (List.cons.inj hu).2
    rw [maskFrom_string, closesString_raw, hno, if_neg Bool.false_ne_true, ih .rawString]
  | case13 quote escaped c rest hc ih =>
    cases h with
    | quoted h =>
      rw [maskFrom_string, closesString_quote, ← h, if_pos (decide_eq_true hc), ← ih .code]
      rfl
  | case14 quote escaped c rest hc ih =>
    -- both the bit and the number of backslashes move on by one character
    cases h with
    | quoted h =>
      have hbit := odd_backslashes_concat before c
      rw [← h] at hbit
      rw [maskFrom_string, closesString_quote, ← h, decide_eq_false hc, if_neg Bool.false_ne_true,
        ih (.quoted hbit.symm)]

/-- The mask of a text is what the lexer makes of it. -/
theorem mask_eq_lex (t : Text) : mask .kotlin t = lex t := by
  have hstart : Agrees [] .code .code := .code
  rw [mask, prepared_kotlin]
  exact maskFrom_eq_lexFrom hstart t

end Provenance.Outline
