/-
Lower case, once and again.

A text in lower case stays what it is when it is put in lower case. The letters that the runs of the
table lead to are in none of the runs, and neither of the two letters that stand apart is among them;
so every character of a text in lower case stands for itself, wherever in the text it is.
-/
import Provenance.Text.Lower

set_option autoImplicit false

namespace Provenance

variable {runs : List CaseRun} {n : Nat} {c : Char} {before t : Text}

/-! ## The runs -/

/-- A run has a code point. -/
structure CaseRun.Has (r : CaseRun) (n : Nat) : Prop where
  first : r.first ≤ n
  last : n ≤ r.last
  step : (n - r.first) % r.step = 0

/-- A code point is left as it is, or a run has it and it goes to its partner. -/
theorem lowerIn_cases (runs : List CaseRun) (n : Nat) :
    lowerIn runs n = n ∨ ∃ run ∈ runs, run.Has n ∧ lowerIn runs n = (n + run.offset).toNat := by
  induction runs with
  | nil => exact .inl rfl
  | cons run runs ih =>
    unfold lowerIn
    split
    · exact .inl rfl
    rename_i hfirst
    by_cases hlast : n ≤ run.last
    · rw [if_pos hlast]
      split
      · rename_i hstep
        exact .inr ⟨run, List.mem_cons_self, ⟨Nat.not_lt.mp hfirst, hlast, hstep⟩, rfl⟩
      · exact .inl rfl
    · rw [if_neg hlast]
      exact ih.imp_right fun ⟨run', hmem, h⟩ => ⟨run', List.mem_cons_of_mem run hmem, h⟩

/-- Whether the partners that a run gives, which go from `low` to `high`, are beside another run: below it,
above it, or between the others of its code points. -/
def CaseRun.passes (r s : CaseRun) : Bool :=
  let low := (r.first + r.offset).toNat
  let high := (r.last + r.offset).toNat
  Nat.blt high s.first || Nat.blt s.last low ||
    (s.step == 2 && (r.step == 2 || r.first == r.last) && low != 0 && (low + s.first) % 2 == 1)

theorem CaseRun.not_has_of_passes {r s : CaseRun} (h : r.passes s = true) (hr : r.Has n) :
    ¬s.Has (n + r.offset).toNat := by
  obtain ⟨hfirst, hlast, hstep⟩ := hr
  rintro ⟨hfirst', hlast', hstep'⟩
  simp only [passes, Bool.and_eq_true, Bool.or_eq_true, Nat.blt_eq, beq_iff_eq, bne_iff_ne] at h
  obtain (hbelow | habove) | ⟨⟨⟨htwo, hevery⟩, hpos⟩, hodd⟩ := h
  · omega
  · omega
  · rw [htwo] at hstep'
    rcases hevery with htwo' | hone
    · rw [htwo'] at hstep
      omega
    · omega

/-- A run of the one letter with a dot. -/
def dottedIRun : CaseRun := ⟨0x130, 0x130, 1, 0⟩

/-- The partners that the runs give are in none of them, and none is the letter with a dot. -/
theorem passes_lowerRuns : ∀ r ∈ lowerRuns, ∀ s ∈ dottedIRun :: lowerRuns, r.passes s = true := by
  have hall : (lowerRuns.all fun r => (dottedIRun :: lowerRuns).all fun s => r.passes s) = true := by
    decide +kernel
  exact fun r hr => List.all_eq_true.mp (List.all_eq_true.mp hall r hr)

/-- The partner of a code point has no partner of its own. -/
theorem lowerIn_partner {run : CaseRun} (hrun : run ∈ lowerRuns) (hn : run.Has n) :
    lowerIn lowerRuns (n + run.offset).toNat = (n + run.offset).toNat := by
  rcases lowerIn_cases lowerRuns (n + run.offset).toNat with hsame | ⟨s, hs, hhas, -⟩
  · exact hsame
  · exact absurd hhas (CaseRun.not_has_of_passes
      (passes_lowerRuns run hrun s (List.mem_cons_of_mem _ hs)) hn)

/-- It is neither of the two letters that stand apart. -/
theorem partner_ne {run : CaseRun} (hrun : run ∈ lowerRuns) (hn : run.Has n) :
    (n + run.offset).toNat ≠ 0x130 ∧ (n + run.offset).toNat ≠ 0x3a3 := by
  constructor
  · intro h
    refine CaseRun.not_has_of_passes (passes_lowerRuns run hrun dottedIRun List.mem_cons_self) hn ?_
    rw [h]
    exact ⟨by decide, by decide, by decide⟩
  · -- the capital sigma has a partner
    intro h
    have hfixed := lowerIn_partner hrun hn
    rw [h] at hfixed
    exact absurd hfixed (by decide +kernel)

/-! ## Characters in lower case -/

/-- A character that stands for itself in lower case, whatever is around it. -/
structure IsLower (c : Char) : Prop where
  noDottedI : c ≠ '\u0130'
  noSigma : c ≠ 'Σ'
  fixed : lowerChar c = c

instance (c : Char) : Decidable (IsLower c) :=
  decidable_of_iff (c ≠ '\u0130' ∧ c ≠ 'Σ' ∧ lowerChar c = c)
    ⟨fun ⟨hi, hs, hc⟩ => ⟨hi, hs, hc⟩, fun ⟨hi, hs, hc⟩ => ⟨hi, hs, hc⟩⟩

theorem isLower_ofNat (hfixed : lowerIn lowerRuns n = n) (hi : n ≠ 0x130) (hs : n ≠ 0x3a3) :
    IsLower (Char.ofNat n) := by
  -- what is no code point of a character stands for the null character
  have hcode : (Char.ofNat n).toNat = n ∨ Char.ofNat n = '\x00' := by
    by_cases hvalid : n.isValidChar
    · exact .inl (by rw [Char.ofNat, dif_pos hvalid]; rfl)
    · exact .inr (by rw [Char.ofNat, dif_neg hvalid]; rfl)
  rcases hcode with hcode | hcode
  · refine ⟨fun h => hi ?_, fun h => hs ?_, ?_⟩
    · rw [← hcode, h]
      rfl
    · rw [← hcode, h]
      rfl
    · rw [lowerChar, hcode, hfixed]
  · rw [hcode]
    decide

theorem isLower_lowerChar (hi : c ≠ '\u0130') (hs : c ≠ 'Σ') : IsLower (lowerChar c) := by
  rcases lowerIn_cases lowerRuns c.toNat with hsame | ⟨run, hrun, hhas, hpartner⟩
  · have hself : lowerChar c = c := by rw [lowerChar, hsame, Char.ofNat_toNat]
    rw [hself]
    exact ⟨hi, hs, hself⟩
  · obtain ⟨hno, hno'⟩ := partner_ne hrun hhas
    rw [lowerChar, hpartner]
    exact isLower_ofNat (lowerIn_partner hrun hhas) hno hno'

/-! ## Texts in lower case -/

theorem isLower_of_mem_lowerAfter : ∀ e ∈ lowerAfter before t, IsLower e := by
  induction t generalizing before with
  | nil => simp [lowerAfter]
  | cons c t ih =>
    intro e he
    rw [lowerAfter] at he
    rcases List.mem_append.mp he with he | he
    · split at he
      · simp only [List.mem_cons, List.not_mem_nil, or_false] at he
        rcases he with rfl | rfl <;> decide +kernel
      rename_i hi
      split at he
      · split at he <;> (obtain rfl := List.mem_singleton.mp he; decide +kernel)
      · rename_i hs
        obtain rfl := List.mem_singleton.mp he
        exact isLower_lowerChar hi hs
    · exact ih e he

theorem lowerAfter_of_isLower (h : ∀ c ∈ t, IsLower c) : lowerAfter before t = t := by
  induction t generalizing before with
  | nil => rfl
  | cons c t ih =>
    obtain ⟨hc, ht⟩ := List.forall_mem_cons.mp h
    rw [lowerAfter, if_neg hc.noDottedI, if_neg hc.noSigma, hc.fixed, ih ht, List.singleton_append]

/-- A text in lower case is its own lower case. -/
theorem Text.lower_lower (t : Text) : t.lower.lower = t.lower :=
  lowerAfter_of_isLower isLower_of_mem_lowerAfter

/-- Lower case does not make a text shorter. -/
theorem length_le_lowerAfter (before t : Text) : t.length ≤ (lowerAfter before t).length := by
  induction t generalizing before with
  | nil => exact Nat.zero_le _
  | cons c t ih =>
    have hrest := ih (c :: before)
    rw [lowerAfter, List.length_append, List.length_cons]
    split
    · simp only [List.length_cons, List.length_nil]
      omega
    split <;> simp only [List.length_cons, List.length_nil] <;> omega

end Provenance
