/-
Texts and numbers that are read back.

What the writer makes of a text or a number the reader takes for that text or number, whatever
stands behind it. A quoted text ends at its quote. A number has no such end: it must be followed by
something that no number goes on with, and it is the longest number that begins the text.
-/
import Mathlib.Algebra.Group.Nat.Defs
import Mathlib.Data.List.Basic
import Mathlib.Data.List.TakeWhile
import Provenance.Json.Printer
import Provenance.Json.Reader

set_option autoImplicit false

namespace Provenance

/-! ## Hexadecimal digits -/

theorem hexValue?_hexDigit {n : Nat} (h : n < 16) : hexValue? (hexDigit n) = some n := by
  have hall : ∀ n < 16, hexValue? (hexDigit n) = some n := by decide
  exact hall n h

theorem hexNumber?_concat (t : Text) (c : Char) :
    hexNumber? (t ++ [c]) = (hexNumber? t).bind fun n => (hexValue? c).map (n * 16 + ·) := by
  rw [hexNumber?, List.foldl_append]
  show (do return (← hexNumber? t) * 16 + (← hexValue? c)) = _
  cases hexNumber? t <;> cases hexValue? c <;> rfl

/-- The number that is written with some digits is read back, as far as it goes into the digits. -/
theorem hexNumber?_hexText (width n : Nat) : hexNumber? (hexText width n) = some (n % 16 ^ width) := by
  induction width generalizing n with
  | zero => rw [Nat.pow_zero, Nat.mod_one]; rfl
  | succ width ih =>
    rw [hexText, hexNumber?_concat, ih, hexValue?_hexDigit (Nat.mod_lt n (by decide)), Nat.pow_succ,
      Nat.mul_comm, Nat.mod_mul]
    exact congrArg some (by rw [Nat.mul_comm, Nat.add_comm])

namespace Json

variable {c : Char} {t rest : Text}

/-! ## Quoted texts -/

theorem takeHex4_hexText {n : Nat} (h : n < 0x10000) (rest : Text) :
    takeHex4 (hexText 4 n ++ rest) = some (n, rest) := by
  have hfits : n < 16 ^ 4 := by omega
  have hnumber := hexNumber?_hexText 4 n
  rw [Nat.mod_eq_of_lt hfits] at hnumber
  obtain ⟨p, q, r, s, hdigits⟩ : ∃ p q r s, hexText 4 n = [p, q, r, s] := ⟨_, _, _, _, rfl⟩
  rw [hdigits] at hnumber ⊢
  rw [List.cons_append, List.cons_append, List.cons_append, List.singleton_append, takeHex4, hnumber]
  rfl

/-- An escape is read as the character of its unit, or of it and the unit after it. -/
theorem readText_unitEscape {n : Nat} (h : n < 0x10000) (fuel : Nat) (rest : Text) :
    readText (fuel + 1) (unitEscape n ++ rest)
      = (readText fuel (joinSurrogates n rest).2).map fun (t, r) => ((joinSurrogates n rest).1 :: t, r) := by
  rw [unitEscape, List.cons_append, List.cons_append, readText, if_neg (by decide), if_pos rfl]
  dsimp only
  rw [takeHex4_hexText h]

theorem joinSurrogates_of_char (c : Char) (rest : Text) : joinSurrogates c.toNat rest = (c, rest) := by
  have hvalid : c.toNat < 0xD800 ∨ 0xDFFF < c.toNat ∧ c.toNat < 0x110000 := c.valid
  unfold joinSurrogates
  rw [if_neg (by omega), unitChar, if_neg (by omega), Char.ofNat_toNat]

theorem joinSurrogates_units {high low : Nat} (hhigh : 0xD800 ≤ high ∧ high < 0xDC00)
    (hlow : 0xDC00 ≤ low ∧ low < 0xE000) (rest : Text) : joinSurrogates high (unitEscape low ++ rest)
      = (Char.ofNat (0x10000 + (high - 0xD800) * 0x400 + (low - 0xDC00)), rest) := by
  have hunit : low < 0x10000 := by omega
  unfold joinSurrogates
  rw [if_pos hhigh]
  simp only [unitEscape, List.cons_append, takeHex4_hexText hunit]
  rw [if_pos hlow]

/-- Two units that were made of one character beyond the basic plane are that character again. -/
theorem joinSurrogates_pair (h : 0x10000 ≤ c.toNat) (rest : Text) :
    joinSurrogates (0xD800 + (c.toNat - 0x10000) / 0x400)
      (unitEscape (0xDC00 + (c.toNat - 0x10000) % 0x400) ++ rest) = (c, rest) := by
  have hvalid : c.toNat < 0xD800 ∨ 0xDFFF < c.toNat ∧ c.toNat < 0x110000 := c.valid
  have hsum : ∀ n : Nat, 0x10000 ≤ n → 0x10000 + (0xD800 + (n - 0x10000) / 0x400 - 0xD800) * 0x400
      + (0xDC00 + (n - 0x10000) % 0x400 - 0xDC00) = n := by omega
  rw [joinSurrogates_units (by omega) (by omega), hsum _ h, Char.ofNat_toNat]

/-- A character that was written is read back. -/
theorem readText_escapedChar (fuel : Nat) (c : Char) (rest : Text) :
    readText (fuel + 1) (escapedChar c ++ rest) = (readText fuel rest).map fun (t, r) => (c :: t, r) := by
  rw [escapedChar]
  split_ifs with h₁ h₂ h₃ h₄ h₅ h₆ h₇ hplain hbasic
  all_goals try (subst c; rfl)
  · -- a character that stands for itself
    rw [List.singleton_append, readText.eq_def]
    dsimp only
    rw [if_neg h₁, if_neg h₂, if_neg (by omega)]
  · rw [readText_unitEscape hbasic, joinSurrogates_of_char]
  · have hvalid : c.toNat < 0xD800 ∨ 0xDFFF < c.toNat ∧ c.toNat < 0x110000 := c.valid
    rw [List.append_assoc, readText_unitEscape (by omega), joinSurrogates_pair (by omega)]

/-- A text that was written is read back, up to its quote. -/
theorem readText_escaped {fuel : Nat} (h : t.length < fuel) (rest : Text) :
    readText fuel (t.flatMap escapedChar ++ '"' :: rest) = .ok (t, rest) := by
  induction t generalizing fuel with
  | nil =>
    obtain ⟨fuel, rfl⟩ := Nat.exists_eq_add_one_of_ne_zero (Nat.ne_of_gt h)
    rfl
  | cons c t ih =>
    obtain ⟨fuel, rfl⟩ := Nat.exists_eq_add_one_of_ne_zero (Nat.ne_of_gt (Nat.zero_lt_of_lt h))
    rw [List.flatMap_cons, List.append_assoc, readText_escapedChar, ih (Nat.lt_of_succ_lt_succ h)]
    rfl

/-! ## Parts of a number -/

/-- Characters that are all digits, and at least one. -/
def IsDigits (t : Text) : Prop := t ≠ [] ∧ ∀ c ∈ t, isDigit c = true

/-- The digits of a number before its point: a zero, or digits that do not begin with one. -/
def IsWhole (t : Text) : Prop := t = ['0'] ∨ IsDigits t ∧ t.head? ≠ some '0'

/-- A fraction as a number has it: nothing, or a point and digits. -/
def IsFraction (t : Text) : Prop := t = [] ∨ ∃ digits, t = '.' :: digits ∧ IsDigits digits

/-- An exponent as a number has it: nothing, or the letter, perhaps a sign, and digits. -/
def IsExponent (t : Text) : Prop :=
  t = [] ∨ ∃ e sign digits, t = e :: (sign ++ digits) ∧ (e = 'e' ∨ e = 'E')
    ∧ (sign = [] ∨ sign = ['+'] ∨ sign = ['-']) ∧ IsDigits digits

/-- The text does not begin with a digit. -/
def EndsDigits (t : Text) : Prop := ∀ c ∈ t.head?, isDigit c = false

/-- The text does not begin with anything that a number goes on with. -/
def EndsNumber (t : Text) : Prop :=
  ∀ c ∈ t.head?, isDigit c = false ∧ c ≠ '.' ∧ c ≠ 'e' ∧ c ≠ 'E'

variable {digits fraction exponent : Text}

theorem EndsNumber.endsDigits (h : EndsNumber t) : EndsDigits t := fun c hc => (h c hc).1

theorem IsWhole.exists_cons (h : IsWhole digits) : ∃ d ds, digits = d :: ds ∧ isDigit d = true := by
  rcases h with rfl | ⟨hdigits, -⟩
  · exact ⟨'0', [], rfl, rfl⟩
  · obtain ⟨d, ds, rfl⟩ := List.exists_cons_of_ne_nil hdigits.1
    exact ⟨d, ds, rfl, hdigits.2 d List.mem_cons_self⟩

theorem IsFraction.endsDigits (h : IsFraction fraction) (hrest : EndsDigits rest) :
    EndsDigits (fraction ++ rest) := by
  rcases h with rfl | ⟨digits, rfl, -⟩
  · exact hrest
  · rintro c ⟨⟩
    decide

theorem IsExponent.endsDigits (h : IsExponent exponent) (hrest : EndsDigits rest) :
    EndsDigits (exponent ++ rest) := by
  rcases h with rfl | ⟨e, sign, digits, rfl, rfl | rfl, -⟩
  · exact hrest
  all_goals
    rintro c ⟨⟩
    decide

theorem takeDigits_append (h : IsDigits digits) (hrest : EndsDigits rest) :
    takeDigits (digits ++ rest) = (digits, rest) := by
  have hstop : rest.takeWhile isDigit = [] ∧ rest.dropWhile isDigit = rest := by
    cases rest with
    | nil => exact ⟨rfl, rfl⟩
    | cons c rest =>
      have hc := hrest c rfl
      exact ⟨by rw [List.takeWhile_cons, hc]; rfl, by rw [List.dropWhile_cons, hc]; rfl⟩
  rw [takeDigits, List.takeWhile_append_of_pos h.2, List.dropWhile_append_of_pos h.2, hstop.1, hstop.2,
    List.append_nil]

theorem takeFraction_append (h : IsFraction fraction) (hrest : EndsDigits rest)
    (hpoint : rest.head? ≠ some '.') : takeFraction (fraction ++ rest) = (fraction, rest) := by
  rcases h with rfl | ⟨digits, rfl, hdigits⟩
  · rw [List.nil_append]
    unfold takeFraction
    split
    · exact absurd rfl hpoint
    · rfl
  · rw [List.cons_append, takeFraction, takeDigits_append hdigits hrest]
    obtain ⟨d, ds, rfl⟩ := List.exists_cons_of_ne_nil hdigits.1
    rfl

/-- The sign at the beginning of a text, if it has one. -/
def takeSign : Text → Text × Text
  | '+' :: rest => (['+'], rest)
  | '-' :: rest => (['-'], rest)
  | t => ([], t)

/-- Digits do not begin with a sign. -/
theorem takeSign_digits (h : IsDigits digits) (rest : Text) : takeSign (digits ++ rest) = ([], digits ++ rest) := by
  obtain ⟨d, ds, rfl⟩ := List.exists_cons_of_ne_nil h.1
  have hplus : d ≠ '+' := fun hd => absurd (hd ▸ h.2 d List.mem_cons_self) (by decide)
  have hminus : d ≠ '-' := fun hd => absurd (hd ▸ h.2 d List.mem_cons_self) (by decide)
  simp [takeSign, hplus, hminus]

/-- A letter is an exponent if digits come after it and its sign. -/
theorem takeExponent_letter {e : Char} (he : e = 'e' ∨ e = 'E') (t : Text) :
    takeExponent (e :: t) = match takeDigits (takeSign t).2 with
      | ([], _) => ([], e :: t)
      | (digits, after) => (e :: (takeSign t).1 ++ digits, after) := by
  have hletter : (decide (e = 'e') || decide (e = 'E')) = true := by simpa using he
  rw [takeExponent.eq_def]
  dsimp only
  rw [if_pos hletter]
  rfl

theorem takeExponent_other {e : Char} (he : ¬(e = 'e' ∨ e = 'E')) (t : Text) :
    takeExponent (e :: t) = ([], e :: t) := by
  rw [takeExponent.eq_def]
  dsimp only
  rw [if_neg (by simpa using he)]

theorem takeExponent_append (h : IsExponent exponent) (hrest : EndsNumber rest) :
    takeExponent (exponent ++ rest) = (exponent, rest) := by
  rcases h with rfl | ⟨e, sign, digits, rfl, he, hsign, hdigits⟩
  · cases rest with
    | nil => rfl
    | cons c rest =>
      obtain ⟨-, -, hsmall, hlarge⟩ := hrest c rfl
      exact takeExponent_other (not_or.mpr ⟨hsmall, hlarge⟩) rest
  · have hunsigned : takeSign (sign ++ (digits ++ rest)) = (sign, digits ++ rest) := by
      rcases hsign with rfl | rfl | rfl
      · exact takeSign_digits hdigits rest
      · rfl
      · rfl
    rw [List.cons_append, List.append_assoc, takeExponent_letter he, hunsigned,
      takeDigits_append hdigits hrest.endsDigits]
    obtain ⟨d, ds, rfl⟩ := List.exists_cons_of_ne_nil hdigits.1
    rfl

/-- The digits before the point of the number that begins a text: a zero is a number by itself. -/
def takeWhole (t : Text) : Text × Text :=
  match t with
  | '0' :: rest => (['0'], rest)
  | _ => takeDigits t

theorem takeWhole_append (h : IsWhole digits) (hrest : EndsDigits rest) :
    takeWhole (digits ++ rest) = (digits, rest) := by
  rcases h with rfl | ⟨hdigits, hzero⟩
  · rfl
  · have htake := takeDigits_append hdigits hrest
    obtain ⟨d, ds, rfl⟩ := List.exists_cons_of_ne_nil hdigits.1
    unfold takeWhole
    split
    · rename_i heq
      exact absurd (congrArg List.head? heq) hzero
    · exact htake

/-! ## Numbers -/

variable {negative : Bool} {afterDigits afterFraction : Text}

/-- What is read of a number when the digits before the point have been taken. -/
def readAfterWhole (negative : Bool) (digits afterDigits : Text) : Reading Json :=
  match digits with
  | [] => .error .malformed
  | _ =>
    match (takeFraction afterDigits).1 ++ (takeExponent (takeFraction afterDigits).2).1 with
    | [] =>
      if maxIntegerDigits < digits.length then .error (.longInteger digits.length)
      else .ok (.int (if negative then -Int.ofNat (digitsValue digits)
        else Int.ofNat (digitsValue digits)), afterDigits)
    | tail => .ok (.real ((if negative then ['-'] else []) ++ digits ++ tail),
        (takeExponent (takeFraction afterDigits).2).2)

theorem readNumber_eq (negative : Bool) (t : Text) :
    readNumber negative t = readAfterWhole negative (takeWhole t).1 (takeWhole t).2 := rfl

/-- Without digits there is no number. -/
theorem readNumber_malformed (hwhole : takeWhole t = ([], afterDigits)) :
    readNumber negative t = .error .malformed := by
  rw [readNumber_eq, hwhole]
  rfl

/-- A number without fraction and exponent is an integer. -/
theorem readNumber_int (hwhole : takeWhole t = (digits, afterDigits)) (hne : digits ≠ [])
    (hfraction : takeFraction afterDigits = ([], afterFraction))
    (hexponent : takeExponent afterFraction = ([], rest)) :
    readNumber negative t =
      if maxIntegerDigits < digits.length then .error (.longInteger digits.length)
      else .ok (.int (if negative then -Int.ofNat (digitsValue digits)
        else Int.ofNat (digitsValue digits)), afterDigits) := by
  obtain ⟨d, ds, rfl⟩ := List.exists_cons_of_ne_nil hne
  rw [readNumber_eq, hwhole, readAfterWhole.eq_def]
  dsimp only
  rw [hfraction, hexponent]
  rfl

/-- Any other number is kept as it is written. -/
theorem readNumber_real (hwhole : takeWhole t = (digits, afterDigits)) (hne : digits ≠ [])
    (hfraction : takeFraction afterDigits = (fraction, afterFraction))
    (hexponent : takeExponent afterFraction = (exponent, rest)) (hreal : fraction ++ exponent ≠ []) :
    readNumber negative t
      = .ok (.real ((if negative then ['-'] else []) ++ digits ++ (fraction ++ exponent)), rest) := by
  obtain ⟨d, ds, rfl⟩ := List.exists_cons_of_ne_nil hne
  obtain ⟨e, es, htail⟩ := List.exists_cons_of_ne_nil hreal
  rw [readNumber_eq, hwhole, readAfterWhole.eq_def]
  dsimp only
  rw [hfraction, hexponent, htail]

/-! ## What is written of a number -/

theorem isDigit_of_mem_ofNat {n : Nat} (h : c ∈ Text.ofNat n) : isDigit c = true := by
  have hc : c.isDigit = true := Nat.isDigit_of_mem_toDigits (by decide) (by decide) h
  simpa [isDigit, Char.isDigit, Char.le_def] using hc

theorem digitsValue_ofNat (n : Nat) : digitsValue (Text.ofNat n) = n := by
  have hvalue : Nat.ofDigitChars 10 (Text.ofNat n) 0 = n :=
    Nat.ofDigitChars_toDigits (by decide) (by decide)
  rw [Nat.ofDigitChars] at hvalue
  simpa only [digitsValue, Nat.mul_comm 10] using hvalue

/-- The digits of a number that is not zero do not begin with one. -/
theorem head?_ofNat {n : Nat} (h : n ≠ 0) : (Text.ofNat n).head? ≠ some '0' := by
  induction n using Nat.strong_induction_on with
  | _ n ih =>
    rw [Text.ofNat, Nat.toDigits_eq_if (by decide)]
    split
    · rename_i hn
      have hall : ∀ n < 10, n ≠ 0 → n.digitChar ≠ '0' := by decide
      exact fun hhead => hall n hn h (Option.some.inj hhead)
    · rename_i hn
      have hhead := ih (n / 10) (by omega) (by omega)
      rwa [List.head?_append_of_ne_nil _ Nat.toDigits_ne_nil]

theorem isWhole_ofNat (n : Nat) : IsWhole (Text.ofNat n) := by
  by_cases h : n = 0
  · subst h
    exact .inl rfl
  · exact .inr ⟨⟨Nat.toDigits_ne_nil, fun c => isDigit_of_mem_ofNat⟩, head?_ofNat h⟩

/-- A number that was written is read back, if it is not too long. -/
theorem readNumber_ofNat {n : Nat} (h : (Text.ofNat n).length ≤ maxIntegerDigits) (hrest : EndsNumber rest)
    (negative : Bool) : readNumber negative (Text.ofNat n ++ rest)
      = .ok (.int (if negative then -Int.ofNat n else Int.ofNat n), rest) := by
  have hfraction : takeFraction rest = ([], rest) :=
    takeFraction_append (.inl rfl) hrest.endsDigits fun hpoint => (hrest '.' hpoint).2.1 rfl
  rw [readNumber_int (takeWhole_append (isWhole_ofNat n) hrest.endsDigits) Nat.toDigits_ne_nil hfraction
    (takeExponent_append (.inl rfl) hrest), if_neg (Nat.not_lt.mpr h), digitsValue_ofNat]

end Json

end Provenance
