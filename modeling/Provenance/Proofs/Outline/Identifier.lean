/-
Identifiers.

The names that a source gives to its packages and to what it declares are identifiers: a
letter or an underscore, and letters, underscores and digits after it. So there is no blank
in them, no dot and no dollar sign. A name that is given to a declaration is one of them,
and a package is several of them with dots between.
-/
import Mathlib.Data.List.TakeWhile
import Provenance.Outline.Kotlin

set_option autoImplicit false

namespace Provenance

/-! ## Blanks -/

namespace Text

variable {c : Char} {t : Text}

/-- A text with a character that is not blank is not blank. -/
theorem trim_ne_nil (hc : c ∈ t) (hblank : isBlank c = false) : t.trim ≠ [] := by
  -- the character is not among those taken off on the left, nor then among those on the right
  rw [← List.takeWhile_append_dropWhile (p := isBlank) (l := t), List.mem_append] at hc
  rcases hc with hc | hc
  · rw [List.mem_takeWhile_imp hc] at hblank
    exact Bool.noConfusion hblank
  intro hnil
  have hall : ∀ a ∈ t.trimLeft.reverse, isBlank a = true :=
    List.dropWhile_eq_nil_iff.mp (List.reverse_eq_nil_iff.mp hnil)
  rw [hall c (List.mem_reverse.mpr hc)] at hblank
  exact Bool.noConfusion hblank

/-- Nothing is taken off a text without blanks. -/
theorem trim_eq_self (h : ∀ c ∈ t, isBlank c = false) : t.trim = t := by
  have hkeeps : ∀ u : Text, (∀ c ∈ u, isBlank c = false) → u.dropWhile isBlank = u := by
    intro u hu
    cases u with
    | nil => rfl
    | cons c u => simp [hu c List.mem_cons_self]
  rw [trim, trimLeft, hkeeps t h, trimRight, dropRightWhile,
    hkeeps t.reverse fun c hc => h c (List.mem_reverse.mp hc), List.reverse_reverse]

end Text

namespace Outline

variable {c : Char} {t u name rest line p : Text}

/-! ## Characters -/

/-- No character that begins an identifier is blank. -/
theorem not_isBlank_of_isIdentStart (h : isIdentStart c = true) : isBlank c = false := by
  simp only [isIdentStart, Bool.or_eq_true, Bool.and_eq_true, decide_eq_true_eq] at h
  have hcode : ('A'.toNat ≤ c.toNat ∧ c.toNat ≤ 'Z'.toNat) ∨ ('a'.toNat ≤ c.toNat ∧ c.toNat ≤ 'z'.toNat)
      ∨ c.toNat = '_'.toNat := by
    rcases h with (⟨hA, hZ⟩ | ⟨ha, hz⟩) | rfl
    · exact .inl ⟨hA, hZ⟩
    · exact .inr (.inl ⟨ha, hz⟩)
    · exact .inr (.inr rfl)
  simp only [Char.reduceToNat] at hcode
  simp only [isBlank, blankRanges, CodeRanges.has]
  grind

/-- Nor is a character that goes on one. -/
theorem not_isBlank_of_isIdentPart (h : isIdentPart c = true) : isBlank c = false := by
  rw [isIdentPart, Bool.or_eq_true] at h
  rcases h with hstart | hdigit
  · exact not_isBlank_of_isIdentStart hstart
  rw [Bool.and_eq_true, decide_eq_true_eq, decide_eq_true_eq] at hdigit
  have hcode : '0'.toNat ≤ c.toNat ∧ c.toNat ≤ '9'.toNat := hdigit
  simp only [Char.reduceToNat] at hcode
  simp only [isBlank, blankRanges, CodeRanges.has]
  grind

/-! ## Identifiers -/

/-- A letter or an underscore, and letters, underscores and digits after it. -/
def IsIdent (t : Text) : Prop :=
  ∃ c rest, t = c :: rest ∧ isIdentStart c = true ∧ ∀ a ∈ rest, isIdentPart a = true

theorem isIdent_of_takeIdent? (h : takeIdent? t = some (name, rest)) : IsIdent name := by
  unfold takeIdent? at h
  split at h
  · simp at h
  · split at h
    · rename_i c rest' hc
      obtain ⟨rfl, -⟩ := Prod.mk.inj (Option.some.inj h)
      exact ⟨c, rest'.takeWhile isIdentPart, rfl, hc, fun a ha => List.mem_takeWhile_imp ha⟩
    · simp at h

theorem IsIdent.ne_nil (h : IsIdent t) : t ≠ [] := by
  obtain ⟨c, rest, rfl, -, -⟩ := h
  exact List.cons_ne_nil c rest

theorem IsIdent.isIdentPart (h : IsIdent t) : ∀ c ∈ t, isIdentPart c = true := by
  obtain ⟨c, rest, rfl, hstart, hparts⟩ := h
  refine List.forall_mem_cons.mpr ⟨?_, hparts⟩
  rw [Outline.isIdentPart, hstart, Bool.true_or]

theorem IsIdent.not_isBlank (h : IsIdent t) : ∀ c ∈ t, isBlank c = false :=
  fun c hc => not_isBlank_of_isIdentPart (h.isIdentPart c hc)

/-- What no identifier goes on with is in none. -/
theorem IsIdent.not_mem (h : IsIdent t) (hc : Outline.isIdentPart c = false) : c ∉ t := by
  intro hmem
  rw [h.isIdentPart c hmem] at hc
  exact Bool.noConfusion hc

theorem IsIdent.trim_ne_nil (h : IsIdent t) : t.trim ≠ [] := by
  rw [Text.trim_eq_self h.not_isBlank]
  exact h.ne_nil

/-- The identifier that a text begins with, if it begins with one: as far as the text goes on with characters
of identifiers, unless the first of these is a digit. -/
def identAt? (t : Text) : Option Text :=
  match t.takeWhile isIdentPart with
  | [] => none
  | c :: rest => if isIdentStart c then some (c :: rest) else none

/-- That is what is read from the text. -/
theorem map_fst_takeIdent? (t : Text) : (takeIdent? t).map Prod.fst = identAt? t := by
  cases t with
  | nil => rfl
  | cons c t =>
    rw [identAt?, takeIdent?]
    by_cases hpart : isIdentPart c = true
    · rw [List.takeWhile_cons_of_pos hpart]
      dsimp only
      split <;> rfl
    · have hstart : ¬isIdentStart c = true := fun h => hpart (by rw [isIdentPart, h, Bool.true_or])
      rw [List.takeWhile_cons_of_neg hpart, if_neg hstart]
      rfl

theorem identAt?_eq_some_iff : identAt? t = some name ↔ IsIdent name ∧ t.takeWhile isIdentPart = name := by
  have hparts : ∀ c ∈ t.takeWhile isIdentPart, isIdentPart c = true := fun c hc => List.mem_takeWhile_imp hc
  rw [identAt?]
  constructor
  · intro h
    split at h
    · exact absurd h (Option.some_ne_none name).symm
    · rename_i c rest htake
      split at h
      · rename_i hc
        obtain rfl := Option.some.inj h
        rw [htake] at hparts
        exact ⟨⟨c, rest, rfl, hc, (List.forall_mem_cons.mp hparts).2⟩, htake⟩
      · exact absurd h (Option.some_ne_none name).symm
  · rintro ⟨⟨c, rest, rfl, hc, -⟩, htake⟩
    rw [htake]
    exact if_pos hc

/-- Texts that go on alike with characters of identifiers begin with the same identifier. -/
theorem identAt?_congr (h : t.takeWhile isIdentPart = u.takeWhile isIdentPart) :
    identAt? t = identAt? u := by
  rw [identAt?, identAt?, h]

/-- An identifier that a text begins with goes on to one that is read. -/
theorem identAt?_ne_none (hident : IsIdent name) (h : name <+: t) : identAt? t ≠ none := by
  obtain ⟨later, rfl⟩ := h
  obtain ⟨c, rest, rfl, hc, -⟩ := hident
  have hpart : isIdentPart c = true := by rw [isIdentPart, hc, Bool.true_or]
  rw [identAt?, List.cons_append, List.takeWhile_cons_of_pos hpart]
  simp [hc]

/-- A text that begins with an identifier does not begin with a blank. -/
theorem not_isBlank_head (h : identAt? t = some name) : ∀ c ∈ t.head?, isBlank c = false := by
  obtain ⟨hident, htake⟩ := identAt?_eq_some_iff.mp h
  intro c hc
  obtain ⟨b, rest, rfl, hb, -⟩ := hident
  have hfirst : b :: rest <+: t := htake ▸ List.takeWhile_prefix _
  obtain ⟨later, rfl⟩ := hfirst
  obtain rfl : b = c := Option.some.inj hc
  exact not_isBlank_of_isIdentStart hb

/-! ## Packages -/

theorem isIdent_of_mem_takeSegments (fuel : Nat) : ∀ t, ∀ s ∈ takeSegments fuel t, IsIdent s := by
  induction fuel with
  | zero => simp [takeSegments]
  | succ fuel ih =>
    intro t s hs
    unfold takeSegments at hs
    split at hs
    · split at hs
      · rename_i segment after hsegment
        rcases List.mem_cons.mp hs with rfl | hs
        · exact isIdent_of_takeIdent? hsegment
        · exact ih after s hs
      · simp at hs
    · simp at hs

/-- A package is identifiers with dots between. -/
theorem segments_of_packageIn? (h : packageIn? line = some p) :
    ∃ segments, segments ≠ [] ∧ (∀ s ∈ segments, IsIdent s) ∧ p = Text.join ['.'] segments := by
  obtain ⟨afterWord, -, h⟩ := Option.bind_eq_some_iff.mp h
  obtain ⟨afterBlanks, -, h⟩ := Option.bind_eq_some_iff.mp h
  obtain ⟨⟨segment, rest⟩, hsegment, h⟩ := Option.bind_eq_some_iff.mp h
  refine ⟨segment :: takeSegments rest.length rest, by simp, ?_, (Option.some.inj h).symm⟩
  exact List.forall_mem_cons.mpr
    ⟨isIdent_of_takeIdent? hsegment, isIdent_of_mem_takeSegments rest.length rest⟩

/-! ## Names of declarations -/

namespace Kotlin

theorem isIdent_companionName : IsIdent companionName :=
  ⟨'C', "ompanion".toList, by decide, by decide, List.all_eq_true.mp (by decide)⟩

/-- The name of a declaration is an identifier, if it has one. -/
theorem isIdent_of_nameOf {h : Header} (hline : headerIn? line = some h)
    (hname : nameOf h = some name) : IsIdent name := by
  unfold nameOf at hname
  split at hname
  · rename_i given hgiven
    obtain rfl := Option.some.inj hname
    obtain ⟨_, -, hline⟩ := Option.bind_eq_some_iff.mp hline
    obtain ⟨⟨keyword, afterKeyword⟩, -, hline⟩ := Option.bind_eq_some_iff.mp hline
    dsimp only at hline
    split at hline
    · rename_i hident
      obtain rfl := Option.some.inj hline
      obtain rfl := Option.some.inj hgiven
      exact isIdent_of_takeIdent? hident
    · obtain rfl := Option.some.inj hline
      simp at hgiven
  · split at hname
    · obtain rfl := Option.some.inj hname
      exact isIdent_companionName
    · simp at hname

end Kotlin

end Outline

end Provenance
