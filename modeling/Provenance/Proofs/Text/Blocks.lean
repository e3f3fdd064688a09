/-
Reading in blocks.

Where the blocks of a file end makes no difference to its lines, if the file is encoded text. What
is kept between two blocks is all that has to be known of the blocks before: the bytes of a character
that is cut off, whether a carriage return waits for a line feed, and the line that has not ended. So
the lines are those of the whole text, as if it had been read at once.
-/
import Provenance.Proofs.Outline.Lines
import Provenance.Proofs.Path
import Provenance.Proofs.Text.Utf8
import Provenance.Text.Blocks

set_option autoImplicit false

namespace Provenance

/-! ## Lines of a text in two parts -/

namespace Text

variable {sep c : Char} {t u v : Text} {piece : Text} {pieces before : List Text}

theorem splitOn_sep (sep : Char) (t : Text) : splitOn sep (sep :: t) = [] :: splitOn sep t := by
  rw [splitOn, if_pos rfl]

theorem splitOn_cons (hc : c ≠ sep) (h : splitOn sep t = piece :: pieces) :
    splitOn sep (c :: t) = (c :: piece) :: pieces := by
  rw [splitOn, if_neg hc, h]

/-- Only the last piece of a text goes on in the text after it. -/
theorem splitOn_append_of_concat (h : splitOn sep t = before ++ [piece]) (u : Text) :
    splitOn sep (t ++ u) = before ++ splitOn sep (piece ++ u) := by
  induction t generalizing before piece with
  | nil =>
    have hnil : [] ++ [[]] = before ++ [piece] := h
    obtain ⟨rfl, hpiece⟩ := List.append_inj' hnil rfl
    rw [← (List.cons.inj hpiece).1]
    rfl
  | cons c t ih =>
    obtain ⟨first, rest, hfirst⟩ := List.exists_cons_of_ne_nil (splitOn_ne_nil sep t)
    by_cases hc : c = sep
    · subst hc
      rw [splitOn_sep] at h
      cases before with
      | nil => exact absurd (List.cons.inj h).2 (splitOn_ne_nil c t)
      | cons b before =>
        obtain ⟨rfl, ht⟩ := List.cons.inj h
        rw [List.cons_append, splitOn_sep, ih ht, List.cons_append]
    · rw [splitOn_cons hc hfirst] at h
      cases before with
      | nil =>
        obtain ⟨rfl, rfl⟩ := List.cons.inj h
        obtain ⟨p, ps, hps⟩ := List.exists_cons_of_ne_nil (splitOn_ne_nil sep (first ++ u))
        have ht : splitOn sep (t ++ u) = [] ++ splitOn sep (first ++ u) := ih hfirst
        rw [List.nil_append, hps] at ht
        rw [List.cons_append, splitOn_cons hc ht, List.nil_append, List.cons_append, splitOn_cons hc hps]
      | cons b before =>
        obtain ⟨rfl, rfl⟩ := List.cons.inj h
        have ht : splitOn sep (t ++ u) = first :: before ++ splitOn sep (piece ++ u) := ih hfirst
        rw [List.cons_append] at ht
        rw [List.cons_append, splitOn_cons hc ht, List.cons_append]

/-! ## Breaks -/

theorem endsWith_concat (t : Text) (c d : Char) : endsWith (t ++ [c]) [d] = decide (c = d) := by
  rw [Bool.eq_iff_iff, decide_eq_true_eq, endsWith, List.isSuffixOf_iff_suffix]
  exact ⟨fun ⟨w, hw⟩ => (List.cons.inj (List.append_inj' hw rfl).2).1.symm, fun h => ⟨t, by rw [h]⟩⟩

/-- What comes last decides what a text ends with. -/
theorem endsWith_append (hne : u ≠ []) (t : Text) (c : Char) :
    endsWith (t ++ u) [c] = endsWith u [c] := by
  obtain ⟨v, d, rfl⟩ := (List.eq_nil_or_concat u).resolve_left hne
  rw [List.concat_eq_append, ← List.append_assoc, endsWith_concat, endsWith_concat]

/-- A carriage return and a line feed are one break; apart from that the breaks of two parts are those
of the whole. -/
theorem unifyBreaks_append (h : ∀ w, t = w ++ ['\r'] → ∀ w', u ≠ '\n' :: w') :
    unifyBreaks (t ++ u) = unifyBreaks t ++ unifyBreaks u := by
  fun_induction unifyBreaks t with
  | case1 => rfl
  | case2 rest ih =>
    rw [List.cons_append, List.cons_append, unifyBreaks, ih fun w hw => h ('\r' :: '\n' :: w) (by rw [hw]; rfl)]
    rfl
  | case3 c rest hpair ih =>
    rw [List.cons_append, unifyBreaks.eq_3]
    · rw [ih fun w hw => h (c :: w) (by rw [hw]; rfl)]
      rfl
    · rintro w rfl hw
      cases rest with
      | nil => exact h [] rfl w hw
      | cons d rest =>
        obtain ⟨rfl, -⟩ := List.cons.inj hw
        exact hpair rest rfl rfl

theorem unifyBreaks_of_not_mem (h : '\r' ∉ t) : unifyBreaks t = t := by
  fun_induction unifyBreaks t with
  | case1 => rfl
  | case2 rest ih => exact absurd List.mem_cons_self h
  | case3 c rest hpair ih =>
    rw [List.mem_cons, not_or] at h
    rw [ih h.2, if_neg (Ne.symm h.1)]

/-- The text without a carriage return at its end, after which a line feed may still come. -/
def settled (t : Text) : Text := if t.endsWith ['\r'] then t.dropLast else t

theorem settled_concat_return (t : Text) : settled (t ++ ['\r']) = t := by
  rw [settled, endsWith_concat, if_pos (by decide), List.dropLast_concat]

theorem settled_append (hne : u ≠ []) (t : Text) : settled (t ++ u) = t ++ settled u := by
  rw [settled, settled, endsWith_append hne, List.dropLast_append_of_ne_nil hne]
  split <;> rfl

/-- The part of a text that is settled, and the carriage return after it. -/
theorem settled_append_return (t : Text) :
    settled t ++ (if endsWith t ['\r'] then ['\r'] else []) = t := by
  rcases List.eq_nil_or_concat t with rfl | ⟨u, c, rfl⟩
  · rfl
  · rw [List.concat_eq_append, settled, endsWith_concat]
    split
    · rename_i hc
      rw [List.dropLast_concat, of_decide_eq_true hc]
    · rw [List.append_nil]

/-- What is settled of a text stays so when more comes, and its breaks stay as they are. -/
theorem unifyBreaks_settled_append (hne : u ≠ []) (t : Text) :
    unifyBreaks (settled (t ++ u)) = unifyBreaks (settled t)
      ++ unifyBreaks (settled ((if endsWith t ['\r'] then ['\r'] else []) ++ u)) := by
  have hsplit : settled (t ++ u) = settled t ++ settled ((if endsWith t ['\r'] then ['\r'] else []) ++ u) := by
    rw [← settled_append (List.append_ne_nil_of_right_ne_nil _ hne), ← List.append_assoc,
      settled_append_return]
  rw [hsplit, unifyBreaks_append]
  intro w hw w' hw'
  by_cases hreturn : endsWith t ['\r'] = true
  · -- the carriage return that was kept comes first
    rw [if_pos hreturn, settled_append hne, List.singleton_append] at hw'
    exact absurd (List.cons.inj hw').1 (by decide)
  · rw [settled, if_neg hreturn] at hw
    rw [hw, endsWith_concat] at hreturn
    exact hreturn (by decide)

end Text

/-! ## Blocks -/

namespace Blocks

open Text

variable {k : Kept} {done later : Text} {before : List Text}

theorem flatten_split (content : Bytes) : (split content).flatten = content := by
  fun_induction split content with
  | case1 => rfl
  | case2 b rest ih => rw [List.flatten_cons, ih, List.cons_append, List.take_append_drop]

/-- What is kept after the text `done`, of which the lines `before` were given. -/
structure Kept.After (k : Kept) (done : Text) (before : List Text) : Prop where
  cut : Utf8.Cut k.bytes
  hasReturn : k.hasReturn = done.endsWith ['\r']
  lines : splitOn '\n' done.settled.unifyBreaks = before ++ [k.line]

/-- At the end of the file the line that is kept is the last one. -/
theorem Kept.After.last (h : k.After done before) (hlater : k.bytes = Utf8.encode later) :
    later = [] ∧ k.last = ⟨[k.line], none⟩ := by
  obtain rfl := (hlater ▸ h.cut).eq_nil
  refine ⟨rfl, ?_⟩
  rw [Kept.last, hlater]
  rfl

/-- One more block of encoded text. -/
theorem Kept.After.read (h : k.After done before) {block rest : Bytes}
    (hlater : k.bytes ++ block ++ rest = Utf8.encode later) :
    ∃ read later' lines k', later = read ++ later' ∧ k.read block = .ok (lines, k')
      ∧ k'.After (done ++ read) (before ++ lines) ∧ k'.bytes ++ rest = Utf8.encode later' := by
  obtain ⟨read, later', tail, rfl, -, htail, hcut, hdecode⟩ := Utf8.decodePart_of_prefix hlater
  rw [Kept.read, hdecode]
  cases read with
  | nil =>
    refine ⟨[], later', [], { k with bytes := tail }, rfl, rfl, ⟨hcut, ?_, ?_⟩, htail⟩
    · rw [List.append_nil, h.hasReturn]
    · rw [List.append_nil, List.append_nil, h.lines]
  | cons c read =>
    have hne : c :: read ≠ [] := List.cons_ne_nil c read
    obtain ⟨lines, line, hlines⟩ : ∃ lines line, splitOn '\n' (k.line ++ unifyBreaks (settled
        ((if k.hasReturn then ['\r'] else []) ++ c :: read))) = lines ++ [line] :=
      (List.eq_nil_or_concat' _).resolve_left (splitOn_ne_nil _ _)
    refine ⟨c :: read, later', lines, ⟨tail, endsWith (c :: read) ['\r'], line⟩, rfl, ?_,
      ⟨hcut, (endsWith_append hne done '\r').symm, ?_⟩, htail⟩
    · rw [settled, endsWith_append hne] at hlines
      dsimp only
      rw [hlines, List.dropLast_concat, List.getLastD_concat]
    · rw [unifyBreaks_settled_append hne, ← h.hasReturn, splitOn_append_of_concat h.lines, hlines,
        List.append_assoc]

theorem Kept.After.take (h : k.After done before) {blocks : List Bytes}
    (hlater : k.bytes ++ blocks.flatten = Utf8.encode later) :
    ∃ lines, k.take blocks = ⟨lines, none⟩
      ∧ splitOn '\n' (settled (done ++ later)).unifyBreaks = before ++ lines := by
  induction blocks generalizing k done later before with
  | nil =>
    rw [List.flatten_nil, List.append_nil] at hlater
    obtain ⟨rfl, hlast⟩ := h.last hlater
    exact ⟨[k.line], by rw [Kept.take, hlast], by rw [List.append_nil, h.lines]⟩
  | cons block blocks ih =>
    rw [List.flatten_cons, ← List.append_assoc] at hlater
    obtain ⟨read, later', lines, k', rfl, hread, hafter, hlater'⟩ := h.read hlater
    obtain ⟨lines', htake, hlines'⟩ := ih hafter hlater'
    exact ⟨lines ++ lines', by rw [Kept.take, hread]; dsimp only; rw [htake],
      by rw [← List.append_assoc, hlines', List.append_assoc]⟩

/-- **The lines of a text that is read in blocks** are the lines of the text. A break at its end
does not open another line if it is a lone carriage return. -/
theorem lines_encode (t : Text) :
    lines (Utf8.encode t) = ⟨splitOn '\n' (settled t).unifyBreaks, none⟩ := by
  have hbegin : Kept.nothing.After [] [] := ⟨.inl rfl, rfl, rfl⟩
  have hbytes : Kept.nothing.bytes ++ (split (Utf8.encode t)).flatten = Utf8.encode t := by
    rw [flatten_split]
    rfl
  obtain ⟨lines, htake, hlines⟩ := hbegin.take hbytes
  rw [Blocks.lines, htake]
  rw [List.nil_append, List.nil_append] at hlines
  rw [hlines]

end Blocks

end Provenance
