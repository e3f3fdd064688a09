/-
The last line.

Nothing that an outline tells of a text lies behind its last line. That takes an argument for the ends
of bodies only: they come from the braces, which are counted by line feeds, while the lines of the
outline are those of `splitLines`. Where a text has no other line breaks the two agree, and a closing
brace is on a line that the text has.

A line feed that is put behind the last line of such a text, where that has none yet, is therefore no
line for the outline: there are the same lines, the same braces and nothing behind them.
-/
import Provenance.Proofs.Outline.Nesting
import Provenance.Proofs.Outline.Shift

set_option autoImplicit false

namespace Provenance.Outline

variable {t : Text} {line column last : Nat} {opened : List (Nat × Nat)}

/-! ## Braces -/

/-- Every block ends on a line of the text. -/
theorem endLine_lt_of_mem_scanFrom (ht : t.OnlyFeeds) :
    ∀ b ∈ (scanFrom line column opened t).blocks, b.endLine < line + t.splitLines.length := by
  induction t generalizing line column opened with
  | nil => simp [scanFrom]
  | cons c t ih =>
    obtain ⟨hrest, hc⟩ := ht.of_cons
    rcases hc with rfl | hc
    · intro b hb
      rw [scanFrom_feed] at hb
      have hlast := ih hrest b hb
      rw [Text.splitLines_feed, List.length_cons]
      omega
    have hlength := Text.length_splitLines_char hc t
    -- the line goes on: the text has it, and no fewer lines than its rest
    have hlater : ∀ {column opened}, ∀ b ∈ (scanFrom line column opened t).blocks,
        b.endLine < line + (Text.splitLines (c :: t)).length := fun b hb => by
      have hlast := ih hrest b hb
      omega
    by_cases hopening : c = '{'
    · rw [hopening, scanFrom_opening, ← hopening]
      exact hlater
    by_cases hclosing : c = '}'
    · rw [hclosing]
      cases opened with
      | nil =>
        rw [scanFrom_unmatched, ← hclosing]
        exact hlater
      | cons place outer =>
        rw [scanFrom_closing, ← hclosing]
        refine List.forall_mem_cons.mpr ⟨?_, hlater⟩
        show line < line + (Text.splitLines (c :: t)).length
        omega
    · rw [scanFrom_other (Text.ne_feed hc) hopening hclosing]
      exact hlater

/-- Behind the last line no braces come. -/
theorem scanFrom_end (line column : Nat) (opened : List (Nat × Nat)) (t : Text) :
    scanFrom line column opened (t ++ ['\n']) = scanFrom line column opened t := by
  induction t generalizing line column opened with
  | nil => rw [List.nil_append, scanFrom_feed, scanFrom, scanFrom]
  | cons c t ih =>
    rw [List.cons_append, scanFrom.eq_def, scanFrom.eq_def _ _ _ (c :: t)]
    simp only [ih]

theorem scanBraces_end (t : Text) : scanBraces (t ++ ['\n']) = scanBraces t := by
  rw [scanBraces, scanBraces, scanFrom_end]

theorem endOf?_le (ht : t.OnlyFeeds) (h : (scanBraces t).endOf? line column = some last) :
    last ≤ t.splitLines.length := by
  obtain ⟨b, hb, rfl⟩ := Option.map_eq_some_iff.mp h
  have hmem : b ∈ (scanFrom 1 1 [] t).blocks := mem_sortOn.mp (List.mem_of_find?_eq_some hb)
  have hlast := endLine_lt_of_mem_scanFrom ht b hmem
  omega

/-- Every body ends on a line of the text. -/
theorem bodyEnd?_le (ht : t.OnlyFeeds) {budget depth offset : Nat} {part : Text} {following : List Text}
    (h : bodyEnd? (scanBraces t) budget depth line offset part following = some last) :
    last ≤ t.splitLines.length :=
  let ⟨_, _, _, hend⟩ := exists_endOf?_of_bodyEnd? h
  endOf?_le ht hend

namespace Kotlin

variable {package : Option Text} {bodies : List OpenBody} {lines : List Text} {depths : List Nat}

/-! ## Declarations -/

theorem le_of_mem_declarationsFrom (ht : t.OnlyFeeds)
    (hlines : line + lines.length ≤ t.splitLines.length + 1) :
    ∀ d ∈ declarationsFrom package (scanBraces t) line bodies lines depths,
      d.startLine ≤ t.splitLines.length ∧ d.endLine ≤ t.splitLines.length := by
  intro d hd
  obtain ⟨n, text, header, around, later, depth, htext, -, rfl⟩ := exists_declarationAt_of_mem hd
  have hn : n < lines.length := (List.getElem?_eq_some_iff.mp htext).1
  have hline : ((line + n : Nat) : Int) ≤ t.splitLines.length := Int.ofNat_le.mpr (by omega)
  refine ⟨hline, ?_⟩
  simp only [declarationAt]
  rcases hbody : bodyEndAt? (scanBraces t) (line + n) text header later with _ | last
  · exact hline
  · exact Int.ofNat_le.mpr (bodyEnd?_le ht hbody)

/-- Every declaration begins and ends on a line of the text. -/
theorem le_of_mem_declarationsOf (ht : t.OnlyFeeds) :
    ∀ d ∈ declarationsOf t, d.startLine ≤ t.splitLines.length ∧ d.endLine ≤ t.splitLines.length :=
  le_of_mem_declarationsFrom ht (by omega)

/-- A line feed behind the last line adds nothing to what is declared. -/
theorem declarationsOf_end (ht : t.OnlyFeeds) (hend : ¬t.AtLine) :
    declarationsOf (t ++ ['\n']) = declarationsOf t := by
  rw [declarationsOf, declarationsOf, lineDepths, lineDepths, Text.splitLines_end ht hend, scanBraces_end]

end Kotlin

end Provenance.Outline
