/-
Masked texts.

What is left of a text when its comments and strings are blanked has no marker in it. A character that
is kept stands where it stands in the source, so characters that make a marker in the mask make one
there as well, and it would have been found. Masking a masked text therefore leaves it as it is, under
all rules whose markers hold neither a blank nor a line feed: these are what the mask puts in the
place of other characters, or keeps in comments and strings.

The outline of a Kotlin source is read off its mask. So a source and its mask have one outline, and so
have any two sources with one mask: what is written in comments and strings makes no difference.
-/
import Provenance.Proofs.Outline.Lines
import Provenance.Proofs.Outline.Nesting

set_option autoImplicit false

namespace Provenance.Outline

variable {r : MaskRules} {region : Region} {skip run : Nat} {t u m : Text} {a c : Char}

/-! ## Kept characters -/

/-- Neither a blank nor a line feed is in the text. -/
def Solid (m : Text) : Prop := ∀ c ∈ m, c ≠ ' ' ∧ c ≠ '\n'

instance (m : Text) : Decidable (Solid m) := List.decidableBAll (fun c => c ≠ ' ' ∧ c ≠ '\n') m

/-- What the mask shows, but for blanks, the source has in the same place. -/
theorem prefix_of_maskFrom (hm : Solid m) (h : m <+: maskFrom r region skip run t) : m <+: t := by
  induction m generalizing region skip run t with
  | nil => exact List.nil_prefix
  | cons a m ih =>
    obtain ⟨ha, hrest⟩ := List.forall_mem_cons.mp hm
    cases t with
    | nil => exact absurd h (by simp [maskFrom])
    | cons c t =>
      obtain ⟨c', region', skip', run', hc, hstep⟩ := maskFrom_cons r region skip run c t
      rw [hstep, List.cons_prefix_cons] at h
      obtain ⟨rfl, h⟩ := h
      exact List.cons_prefix_cons.mpr ⟨hc.resolve_right ha.1, ih hrest h⟩

theorem blankExceptBreak_cases (c : Char) : blankExceptBreak c = ' ' ∨ blankExceptBreak c = '\n' := by
  unfold blankExceptBreak
  split
  · exact .inr ‹_›
  · exact .inl rfl

/-- Where the mask shows something else than a blank or a line feed, it is in code. -/
theorem inCode_of_kept (ha : a ≠ ' ' ∧ a ≠ '\n') (h : maskFrom r region skip run (c :: t) = a :: u) :
    region = .code ∧ skip = 0 := by
  have hblanked : blankExceptBreak c ≠ a := by
    rcases blankExceptBreak_cases c with hc | hc <;> rw [hc]
    · exact Ne.symm ha.1
    · exact Ne.symm ha.2
  cases skip with
  | succ k =>
    rw [maskFrom] at h
    exact absurd (List.cons.inj h).1.symm ha.1
  | zero =>
    cases region with
    | code => exact ⟨rfl, rfl⟩
    | lineComment =>
      rw [maskFrom] at h
      split at h
      · rename_i hc
        exact absurd ((List.cons.inj h).1.symm.trans hc) ha.2
      · exact absurd (List.cons.inj h).1.symm ha.1
    | blockComment closing =>
      rw [maskFrom] at h
      split at h
      · exact absurd (List.cons.inj h).1.symm ha.1
      · exact absurd (List.cons.inj h).1 hblanked
    | string closing =>
      rw [maskFrom] at h
      split at h
      · exact absurd (List.cons.inj h).1.symm ha.1
      · exact absurd (List.cons.inj h).1 hblanked

/-- No marker begins there in the source. -/
theorem opening?_of_kept (ha : a ≠ ' ' ∧ a ≠ '\n') (h : maskFrom r region skip run (c :: t) = a :: u) :
    r.opening? (c :: t) = none := by
  obtain ⟨rfl, rfl⟩ := inCode_of_kept ha h
  rw [maskFrom] at h
  split at h
  · exact absurd (List.cons.inj h).1.symm ha.1
  · assumption

/-! ## Texts without markers -/

/-- The markers that open something. -/
def MaskRules.openings (r : MaskRules) : List Text :=
  r.lineComments ++ r.blockComments.map Prod.fst ++ r.strings

theorem opening?_eq_none_iff :
    r.opening? t = none ↔ ∀ m ∈ r.openings, t.startsWith m = false := by
  have hline : r.lineComments.find? t.startsWith = none
      ↔ ∀ m ∈ r.lineComments, t.startsWith m = false := by
    simp only [List.find?_eq_none, Bool.not_eq_true]
  have hblock : r.blockComments.find? (fun p => t.startsWith p.1) = none
      ↔ ∀ m ∈ r.blockComments.map Prod.fst, t.startsWith m = false := by
    simp only [List.find?_eq_none, Bool.not_eq_true, List.forall_mem_map]
  have hstring : r.strings.find? t.startsWith = none ↔ ∀ m ∈ r.strings, t.startsWith m = false := by
    simp only [List.find?_eq_none, Bool.not_eq_true]
  rw [MaskRules.openings, List.forall_mem_append, List.forall_mem_append, ← hline, ← hblock, ← hstring,
    MaskRules.opening?]
  cases r.lineComments.find? t.startsWith <;>
    cases r.blockComments.find? (fun p => t.startsWith p.1) <;> simp

/-- Nowhere in the text does a marker begin. -/
def Unmarked (r : MaskRules) : Text → Prop
  | [] => True
  | c :: t => r.opening? (c :: t) = none ∧ Unmarked r t

theorem maskFrom_of_unmarked (h : Unmarked r t) (run : Nat) : maskFrom r .code 0 run t = t := by
  induction t generalizing run with
  | nil => rw [maskFrom]
  | cons c t ih =>
    obtain ⟨hnone, hrest⟩ := h
    simp only [maskFrom, hnone, ih hrest]

/-- No marker begins in a mask. The induction is on the source; what follows a character of the mask is
again the mask of what follows it in the source. -/
theorem unmarked_maskFrom (hr : ∀ m ∈ r.openings, m ≠ [] ∧ Solid m) :
    Unmarked r (maskFrom r region skip run t) := by
  induction t generalizing region skip run with
  | nil =>
    rw [maskFrom]
    trivial
  | cons c t ih =>
    obtain ⟨c', region', skip', run', -, hstep⟩ := maskFrom_cons r region skip run c t
    rw [hstep]
    refine ⟨opening?_eq_none_iff.mpr fun m hm => ?_, ih⟩
    rw [← Bool.not_eq_true]
    intro hstart
    obtain ⟨hne, hsolid⟩ := hr m hm
    have hmask := List.isPrefixOf_iff_prefix.mp hstart
    have hsource : m <+: c :: t := prefix_of_maskFrom hsolid (hstep ▸ hmask)
    -- the marker begins with a character that is kept, and there none was found
    obtain ⟨a, m, rfl⟩ := List.exists_cons_of_ne_nil hne
    obtain ⟨rfl, -⟩ := List.cons_prefix_cons.mp hmask
    have hnone := opening?_of_kept (hsolid a List.mem_cons_self) hstep
    rw [opening?_eq_none_iff] at hnone
    exact Bool.eq_false_iff.mp (hnone _ hm) (List.isPrefixOf_iff_prefix.mpr hsource)

/-- A mask is its own mask. -/
theorem mask_mask {rules : MaskRules} (hr : ∀ m ∈ rules.prepared.openings, m ≠ [] ∧ Solid m) (t : Text) :
    mask rules (mask rules t) = mask rules t :=
  maskFrom_of_unmarked (unmarked_maskFrom hr) 0

theorem openings_kotlin : ∀ m ∈ MaskRules.kotlin.prepared.openings, m ≠ [] ∧ Solid m := by decide

namespace Kotlin

/-! ## Outlines -/

/-- Two texts have the same outline: whatever their paths, both have a unit, and these have the same
package and the same declarations. -/
def SameOutline (t u : Text) : Prop :=
  ∀ path other, ∃ v w : SourceUnit, parse path t = .ok v ∧ parse other u = .ok w
    ∧ w.package = v.package ∧ w.declarations = v.declarations

theorem sameOutline_of_mask (h : mask .kotlin u = mask .kotlin t) : SameOutline t u :=
  fun path other => ⟨_, _, parse_eq path t, parse_eq other u, by rw [h], by rw [h]⟩

/-- Comments and strings have no influence on the outline: masking a mask changes nothing, a text has the
outline of its mask, and texts with one mask have one outline. -/
theorem outline_of_mask (t : Text) : mask .kotlin (mask .kotlin t) = mask .kotlin t
    ∧ SameOutline t (mask .kotlin t) ∧ ∀ u, mask .kotlin u = mask .kotlin t → SameOutline t u :=
  have hmask := mask_mask openings_kotlin t
  ⟨hmask, sameOutline_of_mask hmask, fun _ h => sameOutline_of_mask h⟩

/-- Code that is commented out, in two ways. -/
theorem outline_of_mask_small : mask .kotlin "class A // class B\n".toList
      = mask .kotlin "class A /*\"\x7b\"*/   \n".toList
    ∧ SameOutline "class A /*\"\x7b\"*/   \n".toList "class A // class B\n".toList :=
  ⟨by decide +kernel, (outline_of_mask _).2.2 _ (by decide +kernel)⟩

end Kotlin

end Provenance.Outline
