/-
Blank lines.

An empty line between two lines of a Kotlin source leaves its outline as it is; what lies behind the
new line moves down by one. What is told of a declaration depends on its own line, on the depth at
which that line begins and on the bodies around it, and to all of these an empty line is nothing.
Only the search for the body reads on over further lines, and only there can an empty line be
noticed: it counts as one of the lines that a header may take, and a header that goes on because its
line ends openly does not go on over an empty line, which ends in nothing.

`Spares` keeps clear of both. It asks only about headers that go on over the place of the new line and
find their bodies behind it; all others may be as they like. What the search does is compared in two
steps, as the braces are: behind the new line it runs alike one line further down
(`bodyEnd?_behind`), and before it the two searches do the same on every line until they come to the
new one (`bodyEnd?_blankLine`).
-/
import Provenance.Proofs.Outline.LastLine

set_option autoImplicit false

namespace Provenance.Outline

variable {scan : BraceScan} {budget depth last line offset : Nat} {part : Text}
  {back after following : List Text}

/-! ## Headers over several lines -/

/-- How many parentheses are open where a header goes on behind a line; none if it does not. -/
def pastLine? (depth : Nat) (part : Text) (following : List Text) : Option Nat :=
  match readHeaderLine depth 0 part with
  | .ends depth' => if depth' = 0 ∧ headerGoesOn part following = false then none else some depth'
  | _ => none

/-- How many parentheses are open where a header goes on over the lines `back`; none if it comes to an
end before. -/
def past? (depth : Nat) (part : Text) : (back after : List Text) → Option Nat
  | [], after => pastLine? depth part after
  | next :: back, after =>
    (pastLine? depth part (next :: back ++ after)).bind fun depth' => past? depth' next back after

/-- The line on which the body ends that opens on a header line. -/
def bodyHere? (scan : BraceScan) (depth line offset : Nat) (part : Text) : Option Nat :=
  match readHeaderLine depth offset part with
  | .opens place => scan.endOf? line (place + 1)
  | _ => none

/-- From where on a line is counted makes no difference but to the place of a brace. -/
theorem readHeaderLine_offset (depth offset : Nat) (part : Text) :
    (∃ place place', readHeaderLine depth offset part = .opens place
      ∧ readHeaderLine depth 0 part = .opens place')
      ∨ readHeaderLine depth offset part = readHeaderLine depth 0 part := by
  suffices h : ∀ other, (∃ place place', readHeaderLine depth offset part = .opens place
      ∧ readHeaderLine depth other part = .opens place')
      ∨ readHeaderLine depth offset part = readHeaderLine depth other part from h 0
  intro other
  induction part generalizing depth offset other with
  | nil => exact .inr rfl
  | cons c part ih =>
    rw [readHeaderLine, readHeaderLine]
    split
    · exact ih _ _ _
    split
    · exact ih _ _ _
    split
    · exact .inl ⟨_, _, rfl, rfl⟩
    split
    · exact .inr rfl
    · exact ih _ _ _

/-- The line on which the body ends whose header goes on with whole lines. -/
def bodyIn? (scan : BraceScan) (budget depth line : Nat) : List Text → Option Nat
  | [] => none
  | next :: later => bodyEnd? scan budget depth line 0 next later

/-- The search for a body, line by line. -/
theorem bodyEnd?_succ (scan : BraceScan) (budget depth line offset : Nat) (part : Text)
    (following : List Text) :
    bodyEnd? scan (budget + 1) depth line offset part following
      = match pastLine? depth part following with
        | none => bodyHere? scan depth line offset part
        | some depth' => bodyIn? scan budget depth' (line + 1) following := by
  rw [bodyEnd?.eq_def, pastLine?, bodyHere?]
  dsimp only
  rcases readHeaderLine_offset depth offset part with ⟨place, place', hhere, hzero⟩ | hsame
  · simp only [hhere, hzero]
  · rw [← hsame]
    rcases readHeaderLine depth offset part with place | _ | depth'
    · rfl
    · rfl
    · dsimp only
      split
      · rfl
      · cases following <;> rfl

theorem bodyEnd?_of_stops (h : pastLine? depth part following = none) :
    bodyEnd? scan (budget + 1) depth line offset part following = bodyHere? scan depth line offset part := by
  rw [bodyEnd?_succ, h]

theorem bodyEnd?_of_past {depth' : Nat} (h : pastLine? depth part following = some depth') :
    bodyEnd? scan (budget + 1) depth line offset part following
      = bodyIn? scan budget depth' (line + 1) following := by
  rw [bodyEnd?_succ, h]

/-- A body that is found is found with more lines to read as well. -/
theorem bodyEnd?_mono {found : Nat} (h : bodyEnd? scan budget depth line offset part following = some found) :
    bodyEnd? scan (budget + 1) depth line offset part following = some found := by
  induction budget generalizing depth line offset part following with
  | zero => exact absurd h (by simp [bodyEnd?])
  | succ budget ih =>
    rcases hpast : pastLine? depth part following with _ | depth'
    · rw [bodyEnd?_of_stops hpast] at h ⊢
      exact h
    · rw [bodyEnd?_of_past hpast] at h ⊢
      cases following with
      | nil => exact absurd h (by simp [bodyIn?])
      | cons next later => exact ih h

/-- If a line fewer is enough to find a body, it makes no difference. -/
theorem bodyIn?_fewer
    (h : bodyIn? scan (budget + 1) depth line following ≠ none →
      bodyIn? scan budget depth line following ≠ none) :
    bodyIn? scan budget depth line following = bodyIn? scan (budget + 1) depth line following := by
  cases following with
  | nil => rfl
  | cons next later =>
    rcases hfound : bodyIn? scan budget depth line (next :: later) with _ | found
    · by_cases hmore : bodyIn? scan (budget + 1) depth line (next :: later) = none
      · exact hmore.symm
      · exact absurd hfound (h hmore)
    · exact (bodyEnd?_mono hfound).symm

/-! ## The search and the new line -/

theorem bodyHere?_shifted (scan : BraceScan) (depth last line offset : Nat) (part : Text) :
    bodyHere? (scan.shifted last) depth (shiftLine last line) offset part
      = (bodyHere? scan depth line offset part).map (shiftLine last) := by
  unfold bodyHere?
  split
  · exact endOf?_shifted scan last line _
  · rfl

/-- Behind the new line the search runs alike, one line further down. -/
theorem bodyEnd?_behind (h : last < line) :
    bodyEnd? (scan.shifted last) budget depth (line + 1) offset part following
      = (bodyEnd? scan budget depth line offset part following).map (shiftLine last) := by
  induction budget generalizing depth line offset part following with
  | zero => rfl
  | succ budget ih =>
    rcases hpast : pastLine? depth part following with _ | depth'
    · rw [bodyEnd?_of_stops hpast, bodyEnd?_of_stops hpast, ← bodyHere?_shifted, shiftLine_of_lt h]
    · rw [bodyEnd?_of_past hpast, bodyEnd?_of_past hpast]
      cases following with
      | nil => rfl
      | cons next later => exact ih (Nat.lt_succ_of_lt h)

theorem bodyIn?_behind (h : last < line) :
    bodyIn? (scan.shifted last) budget depth (line + 1) following
      = (bodyIn? scan budget depth line following).map (shiftLine last) := by
  cases following with
  | nil => rfl
  | cons next later => exact bodyEnd?_behind h

/-- Before an empty line a header goes on if it goes on without it. -/
theorem pastLine?_blankLine (depth : Nat) (part : Text) (back after : List Text) :
    pastLine? depth part (back ++ [] :: after) = pastLine? depth part (back ++ after) := by
  have hnext : (back ++ [] :: after).find? (Text.trim · ≠ [])
      = (back ++ after).find? (Text.trim · ≠ []) := by
    rw [List.find?_append, List.find?_append]
    rfl
  rw [pastLine?, pastLine?, headerGoesOn, headerGoesOn, hnext]

/-- On an empty line a header goes on if a parenthesis is open or the next line begins so. -/
theorem pastLine?_nil (depth : Nat) (following : List Text) :
    pastLine? depth [] following
      = if depth = 0 ∧ headerGoesOn [] following = false then none else some depth := rfl

/-- The search that has come to the new line. -/
theorem bodyIn?_blankLine (h : last < line)
    (hspare : bodyIn? scan budget depth line following ≠ none →
      bodyIn? scan (budget - 1) depth line following ≠ none
        ∧ (depth = 0 → headerGoesOn [] following = true)) :
    bodyIn? (scan.shifted last) budget depth line ([] :: following)
      = (bodyIn? scan budget depth line following).map (shiftLine last) := by
  cases budget with
  | zero => cases following <;> rfl
  | succ budget =>
    rw [Nat.add_sub_cancel] at hspare
    rw [bodyIn?]
    by_cases hends : depth = 0 ∧ headerGoesOn [] following = false
    · -- the header ends here, and there was no body to be found
      have hnone : bodyIn? scan (budget + 1) depth line following = none := by
        by_contra hfound
        rw [(hspare hfound).2 hends.1] at hends
        exact Bool.noConfusion hends.2
      rw [bodyEnd?_of_stops ((pastLine?_nil depth following).trans (if_pos hends)), hnone]
      rfl
    · rw [bodyEnd?_of_past ((pastLine?_nil depth following).trans (if_neg hends)), bodyIn?_behind h,
        bodyIn?_fewer fun hfound => (hspare hfound).1]

/-- What the search has to meet to come over an empty line behind the lines `back`. If it goes on there
and finds a body, it does so with a line to spare, and not only because the line before ends openly. -/
def SparesLine (scan : BraceScan) (budget depth line offset : Nat) (part : Text)
    (back after : List Text) : Prop :=
  ∀ depth' ∈ past? depth part back after,
    bodyEnd? scan budget depth line offset part (back ++ after) ≠ none →
      bodyEnd? scan (budget - 1) depth line offset part (back ++ after) ≠ none
        ∧ (depth' = 0 → headerGoesOn [] after = true)

instance : Decidable (SparesLine scan budget depth line offset part back after) :=
  inferInstanceAs (Decidable (∀ _ ∈ past? depth part back after, _))

/-- What has a line to spare has one behind the first line. -/
theorem ne_none_of_past {depth' : Nat} (h : pastLine? depth part following = some depth')
    (hfound : bodyEnd? scan (budget + 1 - 1) depth line offset part following ≠ none) :
    bodyIn? scan (budget - 1) depth' (line + 1) following ≠ none := by
  cases budget with
  | zero => exact absurd rfl hfound
  | succ budget =>
    rw [Nat.add_sub_cancel, bodyEnd?_of_past h] at hfound
    exact hfound

theorem SparesLine.next {depth' : Nat} {next : Text}
    (h : SparesLine scan (budget + 1) depth line offset part (next :: back) after)
    (hpast : pastLine? depth part (next :: back ++ after) = some depth') :
    SparesLine scan budget depth' (line + 1) 0 next back after := by
  intro reached hreached hfound
  have hmem : reached ∈ past? depth part (next :: back) after := by
    rw [past?, hpast]
    exact hreached
  obtain ⟨hspare, hopen⟩ := h reached hmem (by rw [bodyEnd?_of_past hpast]; exact hfound)
  exact ⟨ne_none_of_past hpast hspare, hopen⟩

/-- The search finds the body of a header where it has moved to. -/
theorem bodyEnd?_blankLine (hlast : line + back.length = last)
    (hspare : SparesLine scan budget depth line offset part back after) :
    bodyEnd? (scan.shifted last) budget depth line offset part (back ++ [] :: after)
      = (bodyEnd? scan budget depth line offset part (back ++ after)).map (shiftLine last) := by
  induction budget generalizing depth line offset part back with
  | zero => rfl
  | succ budget ih =>
    have hsame := pastLine?_blankLine depth part back after
    rcases hpast : pastLine? depth part (back ++ after) with _ | depth'
    · rw [hpast] at hsame
      rw [bodyEnd?_of_stops hpast, bodyEnd?_of_stops hsame, ← bodyHere?_shifted,
        shiftLine_of_le (Nat.le.intro hlast)]
    · rw [hpast] at hsame
      rw [bodyEnd?_of_past hpast, bodyEnd?_of_past hsame]
      cases back with
      | nil =>
        -- the new line comes next
        refine bodyIn?_blankLine (Nat.lt_succ_of_le (Nat.le_of_eq hlast.symm)) fun hfound => ?_
        obtain ⟨hfewer, hopen⟩ := hspare depth' hpast (by
          rw [bodyEnd?_of_past hpast]
          exact hfound)
        exact ⟨ne_none_of_past hpast hfewer, hopen⟩
      | cons next back =>
        rw [List.length_cons] at hlast
        exact ih (by omega) (hspare.next hpast)

/-! ## Declarations -/

/-- The declaration after a line was put in behind line number `last`: of its first and its last line,
what is behind the new line moves by one. -/
def Declaration.shifted (last : Nat) (d : Declaration) : Declaration :=
  { d with
    startLine := if last < d.startLine then d.startLine + 1 else d.startLine
    endLine := if last < d.endLine then d.endLine + 1 else d.endLine }

theorem Declaration.shifted_of_le {d : Declaration} (hstart : d.startLine ≤ last)
    (hend : d.endLine ≤ last) : d.shifted last = d := by
  rw [Declaration.shifted, if_neg (Int.not_lt.mpr hstart), if_neg (Int.not_lt.mpr hend)]

theorem cast_shiftLine (last line : Nat) :
    ((shiftLine last line : Nat) : Int) = if (last : Int) < line then (line : Int) + 1 else line := by
  unfold shiftLine
  split <;> split <;> omega

namespace Kotlin

variable {package : Option Text} {opened : List OpenBody} {text : Text} {header : Header}
  {later later' lines before : List Text} {depths : List Nat}

/-- The body after a line was put in. -/
def OpenBody.shifted (last : Nat) (body : OpenBody) : OpenBody :=
  { body with endLine := shiftLine last body.endLine }

theorem openAt_shifted (last line : Nat) (opened : List OpenBody) :
    openAt (shiftLine last line) (opened.map (OpenBody.shifted last))
      = (openAt line opened).map (OpenBody.shifted last) := by
  simp only [openAt, List.dropWhile_map, Function.comp_def, OpenBody.shifted, shiftLine_lt_shiftLine]

theorem nesting_shifted (package : Option Text) (last : Nat) (opened : List OpenBody) (depth : Nat)
    (name : Option Text) : nesting package (opened.map (OpenBody.shifted last)) depth name
      = nesting package opened depth name := by
  cases opened <;> rfl

/-- What a line declares, and which bodies are open after it, is what it was before it moved, if the
body that it opens is found where that has moved to. -/
theorem declarationAt_shifted
    (h : bodyEndAt? (scan.shifted last) (shiftLine last line) text header later'
      = (bodyEndAt? scan line text header later).map (shiftLine last)) :
    declarationAt package (scan.shifted last) (shiftLine last line) (opened.map (OpenBody.shifted last))
        text header later' depth
      = (declarationAt package scan line opened text header later depth).shifted last := by
  have hend : ((bodyEndAt? scan line text header later).map (shiftLine last)).getD (shiftLine last line)
      = shiftLine last ((bodyEndAt? scan line text header later).getD line) := by
    cases bodyEndAt? scan line text header later <;> rfl
  simp only [declarationAt, Declaration.shifted, openAt_shifted, nesting_shifted, h, hend, cast_shiftLine]
  rfl

theorem openAfter_shifted
    (h : bodyEndAt? (scan.shifted last) (shiftLine last line) text header later'
      = (bodyEndAt? scan line text header later).map (shiftLine last)) :
    openAfter package (scan.shifted last) (shiftLine last line) (opened.map (OpenBody.shifted last))
        text header later' depth
      = (openAfter package scan line opened text header later depth).map (OpenBody.shifted last) := by
  unfold openAfter
  rw [h]
  rcases bodyEndAt? scan line text header later with _ | found
  · exact openAt_shifted last line opened
  · simp only [Option.map_some, List.map_cons, openAt_shifted, OpenBody.shifted, declarationAt,
      nesting_shifted]

/-- Behind the new line the same is declared, one line further down. -/
theorem declarationsFrom_behind (h : last < line) (opened : List OpenBody) (lines : List Text)
    (depths : List Nat) :
    declarationsFrom package (scan.shifted last) (line + 1) (opened.map (OpenBody.shifted last)) lines depths
      = (declarationsFrom package scan line opened lines depths).map (Declaration.shifted last) := by
  induction lines generalizing line opened depths with
  | nil => rfl
  | cons text later ih =>
    cases depths with
    | nil => rfl
    | cons depth depths =>
      rcases hheader : headerIn? text with _ | header
      · rw [declarationsFrom_none hheader, declarationsFrom_none hheader]
        exact ih (Nat.lt_succ_of_lt h) opened depths
      · have hbody : bodyEndAt? (scan.shifted last) (shiftLine last line) text header later
            = (bodyEndAt? scan line text header later).map (shiftLine last) := by
          rw [shiftLine_of_lt h]
          exact bodyEnd?_behind h
        rw [declarationsFrom_some hheader, declarationsFrom_some hheader, List.map_cons,
          ← ih (Nat.lt_succ_of_lt h), ← declarationAt_shifted hbody, ← openAfter_shifted hbody,
          shiftLine_of_lt h]

/-- All headers among the lines `before`, the first of which is number `line`, can come over an empty
line behind them. -/
def Spares (scan : BraceScan) : (line : Nat) → (before after : List Text) → Prop
  | _, [], _ => True
  | line, text :: back, after =>
    (∀ header ∈ headerIn? text, SparesLine scan headerLines 0 line (text.length - header.rest.length)
      header.rest back after) ∧ Spares scan (line + 1) back after

instance decidableSpares (scan : BraceScan) :
    (line : Nat) → (before after : List Text) → Decidable (Spares scan line before after)
  | _, [], _ => .isTrue trivial
  | line, text :: back, after =>
    have := decidableSpares scan (line + 1) back after
    inferInstanceAs (Decidable ((∀ header ∈ headerIn? text, _) ∧ _))

/-- What is declared in the lines before the new one and behind it is what was declared there. -/
theorem declarationsFrom_blankLine (hlast : line + before.length = last + 1)
    (hspares : Spares scan line before after) (opened : List OpenBody) (depth : Nat) :
    declarationsFrom package (scan.shifted last) line (opened.map (OpenBody.shifted last))
        (before ++ [] :: after) (depthsFrom depth (before ++ [] :: after))
      = (declarationsFrom package scan line opened (before ++ after)
          (depthsFrom depth (before ++ after))).map (Declaration.shifted last) := by
  induction before generalizing line opened depth with
  | nil =>
    have hbehind : last < line := by
      rw [List.length_nil] at hlast
      omega
    have hnone : headerIn? [] = none := rfl
    rw [List.nil_append, List.nil_append, depthsFrom, declarationsFrom_none hnone]
    exact declarationsFrom_behind hbehind opened after (depthsFrom depth after)
  | cons text back ih =>
    obtain ⟨hheaders, hrest⟩ := hspares
    rw [List.length_cons] at hlast
    rw [List.cons_append, List.cons_append, depthsFrom, depthsFrom]
    rcases hheader : headerIn? text with _ | header
    · rw [declarationsFrom_none hheader, declarationsFrom_none hheader]
      exact ih (by omega) hrest opened _
    · have hhere : shiftLine last line = line := shiftLine_of_le (by omega)
      have hbody : bodyEndAt? (scan.shifted last) (shiftLine last line) text header (back ++ [] :: after)
          = (bodyEndAt? scan line text header (back ++ after)).map (shiftLine last) := by
        rw [hhere]
        exact bodyEnd?_blankLine (by omega) (hheaders header hheader)
      rw [declarationsFrom_some hheader, declarationsFrom_some hheader, List.map_cons,
        ← ih (by omega) hrest, ← declarationAt_shifted hbody, ← openAfter_shifted hbody, hhere]

/-! ## Outlines -/

/-- An empty line between two parts of a source leaves the package and the declarations of the outline as
they are, but for the lines behind it, which move by one. -/
def OnlyMoves (path pre post : Text) : Prop :=
  ∃ u u' : SourceUnit, parse path (pre ++ post) = .ok u ∧ parse path (pre ++ '\n' :: post) = .ok u'
    ∧ u'.package = u.package
    ∧ u'.declarations = u.declarations.map (Declaration.shifted pre.splitLines.length)

/-- All headers of the first part of a source can come over an empty line between the parts. -/
def SparesBetween (pre post : Text) : Prop :=
  Spares (scanBraces (mask .kotlin (pre ++ post))) 1
    ((mask .kotlin (pre ++ post)).splitLines.take pre.splitLines.length)
    ((mask .kotlin (pre ++ post)).splitLines.drop pre.splitLines.length)

instance (pre post : Text) : Decidable (SparesBetween pre post) := decidableSpares _ _ _ _

theorem findSome?_blankLine (before after : List Text) :
    (before ++ [] :: after).findSome? packageIn? = (before ++ after).findSome? packageIn? := by
  have hnone : packageIn? [] = none := rfl
  rw [List.findSome?_append, List.findSome?_append, List.findSome?_cons, hnone]

/-- The mask of a text has as many lines as the text. -/
theorem length_splitLines_mask {t : Text} (ht : t.OnlyFeeds) :
    (mask .kotlin t).splitLines.length = t.splitLines.length :=
  Text.length_splitLines_congr (onlyFeeds_mask ht) ht (feeds_mask byLine_kotlin t)

theorem atLine_mask {t : Text} : (mask .kotlin t).AtLine ↔ t.AtLine := by
  rw [Text.atLine_iff, Text.atLine_iff, feeds_mask byLine_kotlin]

/-- Behind an unfinished last line nothing moves. -/
theorem onlyMoves_end {pre : Text} (hpre : pre.OnlyFeeds) (hend : ¬pre.AtLine) (path : Text) :
    OnlyMoves path pre [] := by
  have hmasked : (mask .kotlin pre).OnlyFeeds := onlyFeeds_mask hpre
  have hmask := mask_end byLine_kotlin pre
  have hunfinished := mt atLine_mask.mp hend
  rw [OnlyMoves, List.append_nil]
  refine ⟨_, _, parse_eq path pre, parse_eq path (pre ++ ['\n']), ?_, ?_⟩
  · rw [hmask, Text.splitLines_end hmasked hunfinished]
  · rw [hmask, declarationsOf_end hmasked hunfinished, ← length_splitLines_mask hpre]
    refine ((List.map_congr_left fun d hd => ?_).trans (List.map_id _)).symm
    obtain ⟨hstart, hend⟩ := le_of_mem_declarationsOf hmasked d hd
    exact Declaration.shifted_of_le hstart hend

/-- Between two lines, what is behind moves. -/
theorem onlyMoves_atLine {pre post : Text} (hpre : pre.OnlyFeeds) (hline : pre.AtLine)
    (hspares : SparesBetween pre post) (path : Text) : OnlyMoves path pre post := by
  obtain ⟨v, hmask, hmask'⟩ := mask_blankLine byLine_kotlin hline post
  have hmasked : (mask .kotlin pre).OnlyFeeds := onlyFeeds_mask hpre
  have hline' := atLine_mask.mpr hline
  have hlines := Text.splitLines_append hline' v
  have hlines' := Text.splitLines_append hline' ('\n' :: v)
  rw [Text.splitLines_feed] at hlines'
  have hlength := length_splitLines_mask hpre
  have hscan : scanBraces (mask .kotlin pre ++ '\n' :: v)
      = (scanBraces (mask .kotlin pre ++ v)).shifted pre.splitLines.length := by
    rw [scanBraces_blankLine hline', ← Text.length_splitLines hmasked hline', hlength]
  rw [SparesBetween, hmask, hlines, ← hlength, List.take_left, List.drop_left] at hspares
  refine ⟨_, _, parse_eq path (pre ++ post), parse_eq path (pre ++ '\n' :: post), ?_, ?_⟩
  · rw [hmask, hmask', hlines, hlines']
    exact findSome?_blankLine _ _
  · rw [hmask, hmask', declarationsOf, declarationsOf, lineDepths, lineDepths, hlines, hlines',
      findSome?_blankLine, hscan]
    exact declarationsFrom_blankLine (by omega) hspares [] 0

/-- Blank lines do not change the outline: an empty line that is put in where a line begins, or behind the
last one, moves what is behind it and does nothing else. -/
theorem parse_blankLine {pre post : Text} (hfeeds : (pre ++ post).OnlyFeeds)
    (hboundary : pre.AtLine ∨ post = []) (hspares : SparesBetween pre post) (path : Text) :
    OnlyMoves path pre post := by
  have hpre : pre.OnlyFeeds := fun c hc => hfeeds c (List.mem_append_left post hc)
  by_cases hline : pre.AtLine
  · exact onlyMoves_atLine hpre hline hspares path
  · obtain rfl := hboundary.resolve_left hline
    exact onlyMoves_end hpre hline path

/-- A blank line between the parentheses of a header. -/
theorem onlyMoves_in_parentheses :
    OnlyMoves "A.kt".toList "class A(\n".toList "  val a: Int\n) : B() \x7b\n  class C\n\x7d\n".toList :=
  parse_blankLine (by decide +kernel) (.inl (.inr ⟨"class A(".toList, rfl⟩))
    (by decide +kernel) _

/-- The first line of a header that opens its body on the last line that it may take. -/
def longHeader : Text := "class A(\n".toList

/-- The rest of that header, and its body. -/
def longHeaderRest : Text := List.replicate 48 '\n' ++ ") \x7b\n\x7d\n".toList

/-- One blank line more, and the body is out of reach: the declaration ends where it begins. -/
theorem not_onlyMoves_longHeader : (longHeader ++ longHeaderRest).OnlyFeeds ∧ longHeader.AtLine
    ∧ ¬OnlyMoves "A.kt".toList longHeader longHeaderRest := by
  refine ⟨by decide +kernel, .inr ⟨"class A(".toList, rfl⟩, ?_⟩
  rintro ⟨u, u', hparse, hparse', -, hmoved⟩
  rw [parse_eq] at hparse hparse'
  obtain rfl := Except.ok.inj hparse
  obtain rfl := Except.ok.inj hparse'
  exact absurd hmoved (by decide +kernel)

end Kotlin

end Provenance.Outline
