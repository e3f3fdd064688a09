/-
Lines that move.

If a line is put in behind line number `last` of a text, whatever stands on a later line moves down
by one and the rest stays. The braces of the longer text are those of the shorter one after that
move: it keeps the order of lines, so it keeps which brace belongs to which, and the order in which
pairs are listed.

The two scans run alike over what comes before the new line. Behind it they are one line apart, and
the places of the braces that are open then lie on both sides of it. This is why a scan is compared
with the moved stack and not with the stack itself.
-/
import Provenance.Outline.Kotlin
import Provenance.Proofs.Order
import Provenance.Proofs.Outline.Lines

set_option autoImplicit false

namespace Provenance.Outline

variable {last line other column : Nat} {t u : Text}

/-! ## Line numbers -/

/-- The number of a line after another one was put in behind line number `last`. -/
def shiftLine (last line : Nat) : Nat := if last < line then line + 1 else line

theorem shiftLine_of_lt (h : last < line) : shiftLine last line = line + 1 := if_pos h

theorem shiftLine_of_le (h : line ≤ last) : shiftLine last line = line := if_neg (Nat.not_lt.mpr h)

@[simp] theorem shiftLine_lt_shiftLine : shiftLine last line < shiftLine last other ↔ line < other := by
  unfold shiftLine
  split <;> split <;> omega

@[simp] theorem shiftLine_inj : shiftLine last line = shiftLine last other ↔ line = other := by
  unfold shiftLine
  split <;> split <;> omega

theorem compare_shiftLine (last line other : Nat) :
    compare (shiftLine last line) (shiftLine last other) = compare line other := by
  simp only [Nat.compare_eq_ite_lt, shiftLine_lt_shiftLine]

/-! ## Blocks -/

/-- The block after a line was put in. -/
def Block.shifted (last : Nat) (b : Block) : Block :=
  { b with startLine := shiftLine last b.startLine, endLine := shiftLine last b.endLine }

/-- The scan after a line was put in. -/
def BraceScan.shifted (last : Nat) (s : BraceScan) : BraceScan :=
  { s with blocks := s.blocks.map (Block.shifted last) }

/-- The place of a brace after a line was put in. -/
def shiftPlace (last : Nat) (place : Nat × Nat) : Nat × Nat := (shiftLine last place.1, place.2)

theorem map_shiftPlace {opened : List (Nat × Nat)} (h : ∀ place ∈ opened, place.1 ≤ last) :
    opened.map (shiftPlace last) = opened := by
  refine (List.map_congr_left fun place hplace => ?_).trans (List.map_id _)
  rw [shiftPlace, shiftLine_of_le (h place hplace)]
  rfl

theorem scanFrom_feed (line column : Nat) (opened : List (Nat × Nat)) (t : Text) :
    scanFrom line column opened ('\n' :: t) = scanFrom (line + 1) 1 opened t := by
  rw [scanFrom.eq_def]
  exact if_pos rfl

theorem scanFrom_opening (line column : Nat) (opened : List (Nat × Nat)) (t : Text) :
    scanFrom line column opened ('{' :: t)
      = scanFrom line (column + 1) ((line, column) :: opened) t := by
  rw [scanFrom.eq_def]
  rfl

theorem scanFrom_closing (line column : Nat) (place : Nat × Nat) (outer : List (Nat × Nat)) (t : Text) :
    scanFrom line column (place :: outer) ('}' :: t)
      = { scanFrom line (column + 1) outer t with
          blocks := ⟨place.1, place.2, line, column, outer.length + 1⟩
            :: (scanFrom line (column + 1) outer t).blocks } := by
  rw [scanFrom.eq_def]
  rfl

theorem scanFrom_unmatched (line column : Nat) (t : Text) :
    scanFrom line column [] ('}' :: t)
      = { scanFrom line (column + 1) [] t with
          unmatchedClosing := (scanFrom line (column + 1) [] t).unmatchedClosing + 1 } := by
  rw [scanFrom.eq_def]
  rfl

theorem scanFrom_other {c : Char} (hfeed : c ≠ '\n') (hopening : c ≠ '{') (hclosing : c ≠ '}')
    (line column : Nat) (opened : List (Nat × Nat)) (t : Text) :
    scanFrom line column opened (c :: t) = scanFrom line (column + 1) opened t := by
  rw [scanFrom.eq_def]
  exact (if_neg hfeed).trans ((if_neg hopening).trans (if_neg hclosing))

/-- Behind the new line the scan goes on one line further down. -/
theorem scanFrom_behind (h : last < line) (column : Nat) (opened : List (Nat × Nat)) (t : Text) :
    scanFrom (line + 1) column (opened.map (shiftPlace last)) t
      = (scanFrom line column opened t).shifted last := by
  induction t generalizing line column opened with
  | nil => simp [scanFrom, BraceScan.shifted]
  | cons c t ih =>
    by_cases hfeed : c = '\n'
    · rw [hfeed, scanFrom_feed, scanFrom_feed]
      exact ih (Nat.lt_succ_of_lt h) 1 opened
    by_cases hopening : c = '{'
    · have hplace : (line + 1, column) = shiftPlace last (line, column) := by
        rw [shiftPlace, shiftLine_of_lt h]
      rw [hopening, scanFrom_opening, scanFrom_opening, hplace, ← List.map_cons]
      exact ih h (column + 1) ((line, column) :: opened)
    by_cases hclosing : c = '}'
    · rw [hclosing]
      cases opened with
      | nil =>
        have hrest := ih h (column + 1) []
        rw [List.map_nil] at hrest ⊢
        rw [scanFrom_unmatched, scanFrom_unmatched, hrest]
        rfl
      | cons place outer =>
        rw [List.map_cons, scanFrom_closing, scanFrom_closing, ih h, List.length_map]
        simp only [BraceScan.shifted, List.map_cons, Block.shifted, shiftPlace, shiftLine_of_lt h]
    · rw [scanFrom_other hfeed hopening hclosing, scanFrom_other hfeed hopening hclosing]
      exact ih h (column + 1) opened

/-- Up to the new line the scans run alike. The induction is on the text before it, which ends where
line number `last + 1` begins. -/
theorem scanFrom_blankLine {opened : List (Nat × Nat)} (ht : t.AtLine)
    (hlast : line + t.count '\n' = last + 1) (hcolumn : t = [] → column = 1)
    (hopened : ∀ place ∈ opened, place.1 ≤ last) (u : Text) :
    scanFrom line column opened (t ++ '\n' :: u)
      = (scanFrom line column opened (t ++ u)).shifted last := by
  induction t generalizing line column opened with
  | nil =>
    have hbehind : last < line := by
      rw [List.count_nil] at hlast
      omega
    have hscan := scanFrom_behind hbehind column opened u
    rw [map_shiftPlace hopened, hcolumn rfl] at hscan
    rw [List.nil_append, List.nil_append, scanFrom_feed, hcolumn rfl]
    exact hscan
  | cons c t ih =>
    obtain ⟨hline, hnil⟩ := ht.of_cons
    have hcount := ht.count_pos (List.cons_ne_nil c t)
    rw [List.cons_append, List.cons_append]
    by_cases hfeed : c = '\n'
    · rw [hfeed, List.count_cons_self] at hlast
      rw [hfeed, scanFrom_feed, scanFrom_feed]
      exact ih hline (by omega) (fun _ => rfl) hopened
    -- the line goes on, and the new one does not come next
    have hnext : t = [] → column + 1 = 1 := fun ht => absurd (hnil ht) hfeed
    have hhere : line ≤ last := by omega
    rw [List.count_cons_of_ne hfeed] at hlast
    by_cases hopening : c = '{'
    · rw [hopening, scanFrom_opening, scanFrom_opening]
      exact ih hline hlast hnext (List.forall_mem_cons.mpr ⟨hhere, hopened⟩)
    by_cases hclosing : c = '}'
    · rw [hclosing]
      cases opened with
      | nil =>
        rw [scanFrom_unmatched, scanFrom_unmatched, ih hline hlast hnext hopened]
        rfl
      | cons place outer =>
        obtain ⟨hplace, houter⟩ := List.forall_mem_cons.mp hopened
        rw [scanFrom_closing, scanFrom_closing, ih hline hlast hnext houter]
        simp only [BraceScan.shifted, List.map_cons, Block.shifted, shiftLine_of_le hhere,
          shiftLine_of_le hplace]
    · rw [scanFrom_other hfeed hopening hclosing, scanFrom_other hfeed hopening hclosing]
      exact ih hline hlast hnext hopened

theorem compare_place_shifted (last : Nat) (b c : Block) :
    compare (b.shifted last).place (c.shifted last).place = compare b.place c.place := by
  simp only [Block.place, Block.shifted, List.compare_cons_cons, compare_shiftLine]

/-- The braces of a text with a new line are those of the text without it. -/
theorem scanBraces_blankLine (ht : t.AtLine) (u : Text) :
    scanBraces (t ++ '\n' :: u) = (scanBraces (t ++ u)).shifted (t.count '\n') := by
  have hscan : scanFrom 1 1 [] (t ++ '\n' :: u) = (scanFrom 1 1 [] (t ++ u)).shifted (t.count '\n') :=
    scanFrom_blankLine ht (Nat.add_comm _ _) (fun _ => rfl) (by simp) u
  rw [scanBraces, scanBraces, hscan]
  have hsort : sortOn Block.place ((scanFrom 1 1 [] (t ++ u)).blocks.map (Block.shifted (t.count '\n')))
      = (sortOn Block.place (scanFrom 1 1 [] (t ++ u)).blocks).map (Block.shifted (t.count '\n')) :=
    sortBy_map (f := Block.shifted (t.count '\n')) (compare_place_shifted _) _
  simp only [BraceScan.shifted, hsort]

/-- A block that is looked up is found where it has moved to. -/
theorem endOf?_shifted (scan : BraceScan) (last line column : Nat) :
    (scan.shifted last).endOf? (shiftLine last line) column
      = (scan.endOf? line column).map (shiftLine last) := by
  simp only [BraceScan.endOf?, BraceScan.shifted, List.find?_map, Option.map_map, Function.comp_def,
    Block.shifted, shiftLine_inj]

end Provenance.Outline
