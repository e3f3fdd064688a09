/-
Matching braces.

The scan of a text finds the pairs of braces that belong together, each once, and lists them in the
order in which they open. What it keeps of a brace that is open is its line and its column. Both are
counted up from character to character, and always tell where the text read so far ends; so the stack of
the scan is the stack of places behind that text, each place given by line and column
(`blocks_scanFrom`). Later places are on later lines or in later columns, which is why sorting by lines
and columns is sorting by places.
-/
import Provenance.Proofs.Outline.Balance
import Provenance.Proofs.Outline.Shift

set_option autoImplicit false

namespace Provenance.Outline

variable {t before rest : Text} {c : Char} {i j : Nat}

/-! ## Places -/

/-- The number of the line that a text ends on, where only line feeds end lines. -/
def lineAfter (before : Text) : Nat := before.count '\n' + 1

/-- The number of the column behind a text, on the line that it ends on. -/
def columnAfter (before : Text) : Nat := (before.reverse.takeWhile (· ≠ '\n')).length + 1

theorem lineAfter_feed (t : Text) : lineAfter (t ++ ['\n']) = lineAfter t + 1 := by
  simp [lineAfter]

theorem columnAfter_feed (t : Text) : columnAfter (t ++ ['\n']) = 1 := by
  simp [columnAfter]

theorem lineAfter_char (h : c ≠ '\n') (t : Text) : lineAfter (t ++ [c]) = lineAfter t := by
  rw [lineAfter, List.count_append, List.count_singleton, if_neg (by simpa using h), Nat.add_zero,
    lineAfter]

theorem columnAfter_char (h : c ≠ '\n') (t : Text) : columnAfter (t ++ [c]) = columnAfter t + 1 := by
  rw [columnAfter, List.reverse_concat, List.takeWhile_cons, if_pos (decide_eq_true h), List.length_cons,
    columnAfter]

/-- A text that goes on ends on a later line, or on the same line in a later column. -/
theorem place_lt {u : Text} (hu : u ≠ []) (t : Text) : lineAfter t < lineAfter (t ++ u)
    ∨ lineAfter t = lineAfter (t ++ u) ∧ columnAfter t < columnAfter (t ++ u) := by
  induction u using List.reverseRecOn with
  | nil => exact absurd rfl hu
  | append_singleton u c ih =>
    have hle : lineAfter t < lineAfter (t ++ u)
        ∨ lineAfter t = lineAfter (t ++ u) ∧ columnAfter t ≤ columnAfter (t ++ u) := by
      by_cases hnil : u = []
      · rw [hnil, List.append_nil]
        exact .inr ⟨rfl, Nat.le_refl _⟩
      · exact (ih hnil).imp_right fun h => ⟨h.1, Nat.le_of_lt h.2⟩
    rw [← List.append_assoc]
    by_cases hc : c = '\n'
    · rw [hc, lineAfter_feed]
      omega
    · rw [lineAfter_char hc, columnAfter_char hc]
      omega

/-! ## Blocks -/

/-- The block of a pair of braces, given by their places: the lines and columns of the two, and one more
than the braces that are open before the first. -/
def blockAt (t : Text) (p : Nat × Nat) : Block where
  startLine := lineAfter (t.take p.1)
  startColumn := columnAfter (t.take p.1)
  endLine := lineAfter (t.take p.2)
  endColumn := columnAfter (t.take p.2)
  depth := openIn (t.take p.1) + 1

/-- The pairs of braces that close in the rest of a text. -/
def pairsFrom : (before rest : Text) → List (Nat × Nat)
  | _, [] => []
  | before, c :: rest =>
    (if c = '}' then ((unclosed before)[0]?.map (·, before.length)).toList else [])
      ++ pairsFrom (before ++ [c]) rest

theorem mem_pairsFrom (h : before ++ rest = t) :
    (i, j) ∈ pairsFrom before rest ↔ before.length ≤ j ∧ Pairs t i j := by
  induction rest generalizing before with
  | nil =>
    simp only [pairsFrom, List.not_mem_nil, false_iff, not_and]
    intro hj hpair
    rw [List.append_nil] at h
    have hlt := lt_of_getElem? hpair.closing
    rw [h] at hj
    omega
  | cons c rest ih =>
    have hhere : t[before.length]? = some c := by
      rw [← h]
      simp
    have hbefore : t.take before.length = before := by rw [← h, List.take_left]
    have hwhole : before ++ [c] ++ rest = t := by rw [List.append_assoc]; exact h
    rw [pairsFrom, List.mem_append, ih hwhole, List.length_append, List.length_singleton]
    have hfirst : (i, j) ∈ (if c = '}' then ((unclosed before)[0]?.map (·, before.length)).toList else [])
        ↔ j = before.length ∧ Pairs t i j := by
      constructor
      · intro hmem
        split at hmem
        · rename_i hc
          simp only [Option.mem_toList, Option.map_eq_some_iff, Prod.mk.injEq] at hmem
          obtain ⟨_, htop, rfl, rfl⟩ := hmem
          exact ⟨rfl, pairs_iff.mpr ⟨hc ▸ hhere, hbefore.symm ▸ htop⟩⟩
        · exact absurd hmem (by simp)
      · rintro ⟨rfl, hpair⟩
        obtain ⟨hclosing, htop⟩ := pairs_iff.mp hpair
        rw [hbefore] at htop
        rw [if_pos (Option.some.inj (hhere.symm.trans hclosing)), htop]
        simp
    rw [hfirst, ← or_and_right]
    exact and_congr_left fun _ => by omega

/-- The scan of the rest of a text finds the pairs that close in it. -/
theorem blocks_scanFrom (h : before ++ rest = t) :
    (scanFrom (lineAfter before) (columnAfter before)
        ((unclosed before).map fun i => (lineAfter (t.take i), columnAfter (t.take i))) rest).blocks
      = (pairsFrom before rest).map (blockAt t) := by
  induction rest generalizing before with
  | nil => simp [scanFrom, pairsFrom]
  | cons c rest ih =>
    have hbefore : t.take before.length = before := by rw [← h, List.take_left]
    have hwhole : before ++ [c] ++ rest = t := by rw [List.append_assoc]; exact h
    have hrest := ih hwhole
    rw [pairsFrom]
    by_cases hfeed : c = '\n'
    · subst hfeed
      rw [lineAfter_feed, columnAfter_feed, unclosed_other (by decide) (by decide)] at hrest
      rw [scanFrom_feed, hrest, if_neg (by decide), List.nil_append]
    rw [lineAfter_char hfeed, columnAfter_char hfeed] at hrest
    by_cases hopening : c = '{'
    · subst hopening
      rw [unclosed_opening, List.map_cons, hbefore] at hrest
      rw [scanFrom_opening, hrest, if_neg (by decide), List.nil_append]
    by_cases hclosing : c = '}'
    · subst hclosing
      rw [unclosed_closing] at hrest
      rw [if_pos rfl]
      rcases hstack : unclosed before with _ | ⟨i, outer⟩
      · rw [hstack] at hrest
        rw [List.map_nil, scanFrom_unmatched]
        exact hrest
      · -- what is below the brace on the stack is what was open before it
        rw [hstack, List.tail_cons] at hrest
        have hi : i < before.length := lt_of_mem_unclosed i (hstack ▸ List.mem_cons_self)
        have hsame : t.take i = before.take i := by
          rw [← h, List.take_append_of_le_length (Nat.le_of_lt hi)]
        have houter : unclosed (before.take i) = outer :=
          unclosed_take (n := 0) (by rw [List.drop_zero, hstack])
        rw [List.map_cons, scanFrom_closing, hrest]
        simp [blockAt, hbefore, hsame, ← houter, length_unclosed]
    · rw [unclosed_other hopening hclosing] at hrest
      rw [scanFrom_other hfeed hopening hclosing, hrest, if_neg hclosing, List.nil_append]

theorem nodup_pairsFrom (before rest : Text) : (pairsFrom before rest).Nodup := by
  induction rest generalizing before with
  | nil => exact List.nodup_nil
  | cons c rest ih =>
    rw [pairsFrom]
    split
    · rcases htop : (unclosed before)[0]? with _ | i
      · exact ih (before ++ [c])
      · refine List.nodup_cons.mpr ⟨fun hmem => ?_, ih (before ++ [c])⟩
        -- what comes later closes later
        have hlater := ((mem_pairsFrom rfl).mp hmem).1
        rw [List.length_append, List.length_singleton] at hlater
        exact Nat.not_succ_le_self _ hlater
    · exact ih (before ++ [c])

/-- Each opening brace is in a block or stays open, and each closing one is in a block or has no
partner. -/
theorem count_scanFrom (line column : Nat) (opened : List (Nat × Nat)) (t : Text) :
    opened.length + t.count '{' = (scanFrom line column opened t).blocks.length
        + (scanFrom line column opened t).unclosedOpening
      ∧ t.count '}' = (scanFrom line column opened t).blocks.length
        + (scanFrom line column opened t).unmatchedClosing := by
  induction t generalizing line column opened with
  | nil => simp [scanFrom]
  | cons c t ih =>
    by_cases hfeed : c = '\n'
    · subst hfeed
      rw [scanFrom_feed, List.count_cons_of_ne (by decide), List.count_cons_of_ne (by decide)]
      exact ih (line + 1) 1 opened
    by_cases hopening : c = '{'
    · subst hopening
      obtain ⟨hopens, hcloses⟩ := ih line (column + 1) ((line, column) :: opened)
      rw [scanFrom_opening, List.count_cons_self, List.count_cons_of_ne (by decide)]
      rw [List.length_cons] at hopens
      exact ⟨by omega, hcloses⟩
    by_cases hclosing : c = '}'
    · subst hclosing
      rw [List.count_cons_self, List.count_cons_of_ne (by decide)]
      rcases opened with _ | ⟨place, outer⟩
      · obtain ⟨hopens, hcloses⟩ := ih line (column + 1) []
        rw [scanFrom_unmatched]
        exact ⟨hopens, by dsimp only; omega⟩
      · obtain ⟨hopens, hcloses⟩ := ih line (column + 1) outer
        rw [scanFrom_closing]
        dsimp only
        simp only [List.length_cons]
        omega
    · rw [scanFrom_other hfeed hopening hclosing, List.count_cons_of_ne hopening,
        List.count_cons_of_ne hclosing]
      exact ih line (column + 1) opened

theorem place_take_lt (hij : i < j) (hj : j ≤ t.length) : lineAfter (t.take i) < lineAfter (t.take j)
    ∨ lineAfter (t.take i) = lineAfter (t.take j)
      ∧ columnAfter (t.take i) < columnAfter (t.take j) := by
  have hfirst : (t.take j).take i = t.take i := by rw [List.take_take, Nat.min_eq_left (Nat.le_of_lt hij)]
  have hsplit : t.take i ++ (t.take j).drop i = t.take j := by rw [← hfirst, List.take_append_drop]
  have hmore : (t.take j).drop i ≠ [] := by
    rw [List.ne_nil_iff_length_pos, List.length_drop, List.length_take]
    omega
  rw [← hsplit]
  exact place_lt hmore _

theorem compare_blockAt {p q : Nat × Nat} (hp : p.1 < t.length) (hq : q.1 < t.length) :
    compare (blockAt t p).place (blockAt t q).place = compare p.1 q.1 := by
  have hlt : ∀ {p q : Nat × Nat}, p.1 < q.1 → q.1 < t.length →
      compare (blockAt t p).place (blockAt t q).place = .lt := by
    intro p q hpq hq
    simp only [Block.place, blockAt, List.compare_cons_cons]
    rcases place_take_lt hpq (Nat.le_of_lt hq) with hline | ⟨hline, hcolumn⟩
    · rw [Nat.compare_eq_lt.mpr hline]
      rfl
    · rw [hline, Nat.compare_eq_eq.mpr rfl, Nat.compare_eq_lt.mpr hcolumn]
      rfl
  rcases Nat.lt_trichotomy p.1 q.1 with hpq | hpq | hpq
  · rw [hlt hpq hq, Nat.compare_eq_lt.mpr hpq]
  · have hplace : (blockAt t p).place = (blockAt t q).place := by
      simp only [Block.place, blockAt, hpq]
    rw [hplace, hpq, Std.compare_self, Std.compare_self]
  · have hswap : compare (blockAt t p).place (blockAt t q).place
        = (compare (blockAt t q).place (blockAt t p).place).swap := Std.OrientedCmp.eq_swap
    rw [hswap, hlt hpq hp, Nat.compare_eq_gt.mpr hpq]
    rfl

/-- The places of the braces that belong together, in the order in which they open. -/
def pairsOf (t : Text) : List (Nat × Nat) := sortOn Prod.fst (pairsFrom [] t)

theorem mem_pairsOf : (i, j) ∈ pairsOf t ↔ Pairs t i j := by
  rw [pairsOf, mem_sortOn, mem_pairsFrom (List.nil_append t)]
  exact and_iff_right (Nat.zero_le j)

theorem blocks_scanBraces (t : Text) : (scanBraces t).blocks = (pairsOf t).map (blockAt t) := by
  have hscan : (scanFrom 1 1 [] t).blocks = (pairsFrom [] t).map (blockAt t) :=
    blocks_scanFrom (List.nil_append t)
  have hinside : ∀ p ∈ pairsFrom [] t, p.1 < t.length := fun p hp =>
    lt_of_getElem? ((mem_pairsFrom (List.nil_append t)).mp hp).2.opening
  rw [scanBraces, pairsOf, hscan]
  exact sortBy_map_of_mem fun p hp q hq => compare_blockAt (hinside p hp) (hinside q hq)

/-- The pairs come in the order in which they open, and no two open at one place. -/
theorem pairwise_pairsOf (t : Text) : (pairsOf t).Pairwise fun p q => p.1 < q.1 := by
  have hnodup : (pairsOf t).Pairwise (· ≠ ·) :=
    (perm_sortBy _ _).nodup_iff.mpr (nodup_pairsFrom [] t)
  have hsorted : (pairsOf t).Pairwise fun p q => (compareOn Prod.fst p q).isLE = true :=
    pairwise_sortBy _
  refine (hsorted.and hnodup).imp_of_mem fun {p q} hp hq h => ?_
  have hle : p.1 ≤ q.1 := Nat.isLE_compare.mp h.1
  refine Nat.lt_of_le_of_ne hle fun heq => h.2 ?_
  have hpair : Pairs t p.1 q.2 := heq ▸ mem_pairsOf.mp hq
  exact Prod.ext heq ((mem_pairsOf.mp hp).closing_unique hpair)

/-! ## The scan -/

/-- What a scan of a text has to tell: the blocks are those of the pairs of braces that belong together,
one for each, in the order in which they open; of two pairs one is inside the other or behind it; and
what is not in a block is counted. -/
structure Scans (t : Text) (scan : BraceScan) (pairs : List (Nat × Nat)) : Prop where
  blocks : scan.blocks = pairs.map (blockAt t)
  mem_iff : ∀ i j, (i, j) ∈ pairs ↔ Pairs t i j
  ascending : pairs.Pairwise fun p q => p.1 < q.1
  apart : pairs.Pairwise fun p q => p.2 < q.1 ∨ q.2 < p.2
  ordered : scan.blocks.Pairwise fun b c =>
    b.startLine < c.startLine ∨ b.startLine = c.startLine ∧ b.startColumn < c.startColumn
  opening : t.count '{' = scan.blocks.length + scan.unclosedOpening
  closing : t.count '}' = scan.blocks.length + scan.unmatchedClosing

/-- The scan of a text matches its braces. -/
theorem scanBraces_matches (t : Text) : ∃ pairs, Scans t (scanBraces t) pairs := by
  obtain ⟨hopens, hcloses⟩ := count_scanFrom 1 1 [] t
  have hlength : (scanBraces t).blocks.length = (scanFrom 1 1 [] t).blocks.length :=
    (perm_sortBy _ _).length_eq
  refine ⟨pairsOf t, blocks_scanBraces t, fun i j => mem_pairsOf, pairwise_pairsOf t, ?_, ?_, ?_, ?_⟩
  · exact (pairwise_pairsOf t).imp_of_mem fun hp hq hlt =>
      (mem_pairsOf.mp hp).apart (mem_pairsOf.mp hq) hlt
  · rw [blocks_scanBraces, List.pairwise_map]
    exact (pairwise_pairsOf t).imp_of_mem fun _ hq hlt =>
      place_take_lt hlt (Nat.le_of_lt (lt_of_getElem? (mem_pairsOf.mp hq).opening))
  · rw [hlength]
    rw [List.length_nil, Nat.zero_add] at hopens
    exact hopens
  · rw [hlength]
    exact hcloses

end Provenance.Outline
