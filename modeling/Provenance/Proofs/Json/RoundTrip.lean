/-
Values that are read back.

What the writer makes of a value the reader takes for that value, as long as the value is one that
can be written: its integers are not too long, its other numbers are written as numbers are, no
object names a field twice, and it does not nest too deep. The reader is given fuel for each
character that the value is written with.

A value is written with its fields sorted, so that what is read is the value but for their order.
-/
import Mathlib.Data.List.Forall2
import Provenance.Proofs.Journal
import Provenance.Proofs.Json.Tokens

set_option autoImplicit false

namespace Provenance

/-- A field of a new name comes last. -/
theorem Fields.put_of_not_mem {fields : Fields} {key : Text} (h : key ∉ fields.map Prod.fst)
    (value : Json) : fields.put key value = fields ++ [(key, value)] := by
  induction fields with
  | nil => rfl
  | cons f fields ih =>
    rw [List.map_cons, List.mem_cons, not_or] at h
    rw [Fields.put, if_neg (Ne.symm h.1), ih h.2, List.cons_append]

namespace Json

/-! ## Values that can be read back -/

/-- A number that is no integer, as it is written: one of three words, or digits with a fraction or
an exponent. -/
def IsReal (t : Text) : Prop :=
  t ∈ ["NaN".toList, "Infinity".toList, "-Infinity".toList]
    ∨ ∃ (negative : Bool) (digits fraction exponent : Text),
      t = (if negative then ['-'] else []) ++ digits ++ (fraction ++ exponent)
        ∧ IsWhole digits ∧ IsFraction fraction ∧ IsExponent exponent ∧ fraction ++ exponent ≠ []

mutual

/-- The value is written as JSON can hold it, and nests at most that many levels. -/
def Fits : Nat → Json → Prop
  | _, .int n => (Text.ofNat n.natAbs).length ≤ maxIntegerDigits
  | _, .real literal => IsReal literal
  | 0, .arr _ => False
  | depth + 1, .arr items => ItemsFit depth items
  | 0, .obj _ => False
  | depth + 1, .obj fields => (fields.map Prod.fst).Nodup ∧ FieldsFit depth fields
  | _, _ => True

/-- All items of an array are such values. -/
def ItemsFit : Nat → List Json → Prop
  | _, [] => True
  | depth, item :: items => item.Fits depth ∧ ItemsFit depth items

/-- All fields of an object hold such values. -/
def FieldsFit : Nat → List (Text × Json) → Prop
  | _, [] => True
  | depth, f :: fields => FieldFits depth f ∧ FieldsFit depth fields

/-- A field holds such a value. -/
def FieldFits : Nat → Text × Json → Prop
  | depth, (_, value) => value.Fits depth

end

variable {fuel depth : Nat} {j : Json} {c : Char} {t rest : Text} {items : List Json}
  {fields acc : Fields}

theorem fits_int {n : Int} : Fits depth (.int n) ↔ (Text.ofNat n.natAbs).length ≤ maxIntegerDigits := by
  rw [Fits]

theorem fits_real : Fits depth (.real t) ↔ IsReal t := by
  rw [Fits]

theorem itemsFit_iff : ItemsFit depth items ↔ ∀ i ∈ items, i.Fits depth := by
  induction items with
  | nil => simp [ItemsFit]
  | cons i items ih => rw [ItemsFit, ih, List.forall_mem_cons]

theorem fieldsFit_iff : FieldsFit depth fields ↔ ∀ f ∈ fields, f.2.Fits depth := by
  induction fields with
  | nil => simp [FieldsFit]
  | cons f fields ih => rw [FieldsFit, ih, List.forall_mem_cons, FieldFits]

theorem fits_arr : Fits depth (.arr items) ↔ ∃ d, depth = d + 1 ∧ ∀ i ∈ items, i.Fits d := by
  cases depth with
  | zero => simp [Fits]
  | succ d => simp [Fits, itemsFit_iff]

theorem fits_obj : Fits depth (.obj fields)
    ↔ ∃ d, depth = d + 1 ∧ (fields.map Prod.fst).Nodup ∧ ∀ f ∈ fields, f.2.Fits d := by
  cases depth with
  | zero => simp [Fits]
  | succ d => simp [Fits, fieldsFit_iff]

/-! ## What a value begins with -/

/-- A value begins with a character that is neither a blank nor a closing bracket. -/
def BeginsValue (t : Text) : Prop := ∃ c u, t = c :: u ∧ isGap c = false ∧ c ≠ ']'

theorem beginsValue_of_isDigit (h : isDigit c = true) (t : Text) : BeginsValue (c :: t) := by
  refine ⟨c, t, rfl, ?_, fun hc => absurd (hc ▸ h) (by decide)⟩
  by_contra hgap
  simp only [isGap, Bool.or_eq_true, decide_eq_true_eq, Bool.not_eq_false] at hgap
  rcases hgap with ((rfl | rfl) | rfl) | rfl <;> exact absurd h (by decide)

theorem IsWhole.beginsValue {digits : Text} (h : IsWhole digits) (t : Text) : BeginsValue (digits ++ t) := by
  obtain ⟨d, ds, rfl, hd⟩ := h.exists_cons
  exact beginsValue_of_isDigit hd (ds ++ t)

theorem IsReal.beginsValue (h : IsReal t) : BeginsValue t := by
  rcases h with h | ⟨negative, digits, fraction, exponent, rfl, hdigits, -⟩
  · simp only [List.mem_cons, List.not_mem_nil, or_false] at h
    rcases h with rfl | rfl | rfl <;> exact ⟨_, _, rfl, rfl, by decide⟩
  · rw [List.append_assoc]
    cases negative with
    | false => exact hdigits.beginsValue _
    | true => exact ⟨'-', _, rfl, rfl, by decide⟩

theorem Fits.beginsValue (h : j.Fits depth) : BeginsValue j.render := by
  cases j with
  | null => exact ⟨_, _, rfl, rfl, by decide⟩
  | bool b => cases b <;> exact ⟨_, _, rfl, rfl, by decide⟩
  | int n =>
    cases n with
    | ofNat n =>
      have hdigits := (isWhole_ofNat n).beginsValue []
      rwa [List.append_nil] at hdigits
    | negSucc n => exact ⟨'-', _, rfl, rfl, by decide⟩
  | real literal => exact (fits_real.mp h).beginsValue
  | _ => exact ⟨_, _, rfl, rfl, by decide⟩

theorem BeginsValue.append (h : BeginsValue t) (rest : Text) : BeginsValue (t ++ rest) := by
  obtain ⟨c, u, rfl, hc⟩ := h
  exact ⟨c, u ++ rest, rfl, hc⟩

theorem skipGaps_cons (h : isGap c = false) (t : Text) : skipGaps (c :: t) = c :: t := by
  rw [skipGaps, List.dropWhile_cons, h]
  rfl

theorem BeginsValue.skipGaps_eq (h : BeginsValue t) : skipGaps t = t := by
  obtain ⟨c, u, rfl, hc, -⟩ := h
  exact skipGaps_cons hc u

theorem BeginsValue.skipGaps_space (h : BeginsValue t) : skipGaps (' ' :: t) = t := h.skipGaps_eq

/-! ## Words and numbers -/

/-- A number is not one of the words. -/
theorem readKeyword?_of_isDigit (h : isDigit c = true) (t : Text) :
    readKeyword? (c :: t) = none ∧ readKeyword? ('-' :: c :: t) = none := by
  have hletter : 'n' ≠ c ∧ 't' ≠ c ∧ 'f' ≠ c ∧ 'N' ≠ c ∧ 'I' ≠ c ∧ '-' ≠ c := by
    refine ⟨?_, ?_, ?_, ?_, ?_, ?_⟩ <;> exact fun hc => absurd (hc ▸ h) (by decide)
  constructor <;> simp [readKeyword?, keywords, Text.after?, hletter]

/-- A text that begins with a digit, perhaps after a minus sign, is read as a number. -/
theorem readValue_number {digits : Text} (h : IsWhole digits) (negative : Bool) (fuel depth : Nat) (t : Text) :
    readValue (fuel + 1) depth ((if negative then ['-'] else []) ++ (digits ++ t))
      = readNumber negative (digits ++ t) := by
  obtain ⟨d, ds, rfl, hd⟩ := h.exists_cons
  obtain ⟨hplain, hminus⟩ := readKeyword?_of_isDigit hd (ds ++ t)
  have hmark : d ≠ '"' ∧ d ≠ '[' ∧ d ≠ '\x7b' ∧ d ≠ '-' := by
    refine ⟨?_, ?_, ?_, ?_⟩ <;> exact fun hc => absurd (hc ▸ hd) (by decide)
  cases negative with
  | false => simp [readValue, hmark, hplain]
  | true => simp [readValue, hminus]

theorem readValue_int {n : Int} (h : (Text.ofNat n.natAbs).length ≤ maxIntegerDigits)
    (hrest : EndsNumber rest) (fuel depth : Nat) :
    readValue (fuel + 1) depth (Text.ofInt n ++ rest) = .ok (.int n, rest) := by
  cases n with
  | ofNat n => exact (readValue_number (isWhole_ofNat n) false fuel depth rest).trans (readNumber_ofNat h hrest false)
  | negSucc n => exact (readValue_number (isWhole_ofNat _) true fuel depth rest).trans (readNumber_ofNat h hrest true)

theorem readValue_real (h : IsReal t) (hrest : EndsNumber rest) (fuel depth : Nat) :
    readValue (fuel + 1) depth (t ++ rest) = .ok (.real t, rest) := by
  rcases h with h | ⟨negative, digits, fraction, exponent, rfl, hdigits, hfraction, hexponent, hreal⟩
  · simp only [List.mem_cons, List.not_mem_nil, or_false] at h
    rcases h with rfl | rfl | rfl <;> rfl
  · have hbehind := hexponent.endsDigits hrest.endsDigits
    have hpoint : (exponent ++ rest).head? ≠ some '.' := by
      rcases hexponent with rfl | ⟨e, sign, ds, rfl, rfl | rfl, -⟩
      · exact fun h => (hrest '.' h).2.1 rfl
      all_goals exact fun h => absurd (Option.some.inj h) (by decide)
    rw [List.append_assoc, List.append_assoc, readValue_number hdigits, List.append_assoc]
    obtain ⟨d, ds, hcons, -⟩ := hdigits.exists_cons
    exact readNumber_real (takeWhole_append hdigits (hfraction.endsDigits hbehind))
      (by rw [hcons]; exact List.cons_ne_nil d ds) (takeFraction_append hfraction hbehind hpoint)
      (takeExponent_append hexponent hrest) hreal

/-! ## Values -/

/-- Every value that is written is read back with that fuel. -/
def ReadsValues (fuel : Nat) : Prop := ∀ {depth : Nat} {j : Json} {rest : Text}, j.Fits depth →
  j.render.length ≤ fuel → EndsNumber rest → readValue fuel depth (j.render ++ rest) = .ok (j, rest)

/-- So are the items of an array. -/
def ReadsItems (fuel : Nat) : Prop := ∀ {depth : Nat} {items : List Json} (rest : Text), items ≠ [] →
  (∀ i ∈ items, i.Fits depth) → (Text.join [',', ' '] (renderItems items)).length < fuel →
    readItems fuel depth (Text.join [',', ' '] (renderItems items) ++ ']' :: rest) = .ok (items, rest)

/-- So are the fields of an object. -/
def ReadsFields (fuel : Nat) : Prop := ∀ {depth : Nat} {acc fields : Fields} (rest : Text), fields ≠ [] →
  (∀ f ∈ fields, f.2.Fits depth) → ((acc ++ fields).map Prod.fst).Nodup →
    (Text.join [',', ' '] (renderFields fields)).length < fuel →
      readFields fuel depth acc (Text.join [',', ' '] (renderFields fields) ++ '\x7d' :: rest)
        = .ok (acc ++ fields, rest)

theorem endsNumber_mark (h : c = ',' ∨ c = ']' ∨ c = '\x7d') (t : Text) : EndsNumber (c :: t) := by
  rintro d ⟨⟩
  rcases h with rfl | rfl | rfl <;> exact ⟨rfl, by decide, by decide, by decide⟩

/-- The items of an array begin as the first of them does. -/
theorem beginsValue_items (hne : items ≠ []) (h : ∀ i ∈ items, i.Fits depth) :
    BeginsValue (Text.join [',', ' '] (renderItems items)) := by
  obtain ⟨i, items, rfl⟩ := List.exists_cons_of_ne_nil hne
  have hi := (h i List.mem_cons_self).beginsValue
  cases items with
  | nil => rwa [renderItems, renderItems, Text.join_singleton]
  | cons i' items =>
    rw [renderItems, renderItems, Text.join_cons, List.append_assoc]
    exact hi.append _

/-- The fields of an object begin with the quote of the first name. -/
theorem exists_fields_cons (hne : fields ≠ []) :
    ∃ u, Text.join [',', ' '] (renderFields fields) = '"' :: u := by
  obtain ⟨⟨key, value⟩, fields, rfl⟩ := List.exists_cons_of_ne_nil hne
  cases fields with
  | nil => exact ⟨_, by rw [renderFields, renderFields, Text.join_singleton]; rfl⟩
  | cons f fields => exact ⟨_, by rw [renderFields, renderFields, Text.join_cons]; rfl⟩

theorem length_le_length_escaped (t : Text) : t.length ≤ (t.flatMap escapedChar).length := by
  induction t with
  | nil => exact Nat.zero_le _
  | cons c t ih =>
    have hc : 0 < (escapedChar c).length := by
      unfold escapedChar
      split_ifs <;> exact Nat.zero_lt_succ _
    rw [List.flatMap_cons, List.length_append, List.length_cons]
    omega

/-- A quoted text is read back with less fuel than it has characters. -/
theorem readText_quoted (h : (quotedText t).length ≤ fuel + 1) (rest : Text) :
    readText fuel (t.flatMap escapedChar ++ '"' :: rest) = .ok (t, rest) := by
  have hlen := length_le_length_escaped t
  simp only [quotedText, List.length_append, List.length_cons, List.length_nil] at h
  exact readText_escaped (by omega) rest

theorem readValue_array (h : BeginsValue t) :
    readValue (fuel + 1) (depth + 1) ('[' :: t)
      = (readItems fuel depth t).map fun (items, r) => (.arr items, r) := by
  have hskip := h.skipGaps_eq
  obtain ⟨c, u, rfl, hc, hbracket⟩ := h
  simp [readValue, hskip, hbracket]

theorem readValue_object (t : Text) :
    readValue (fuel + 1) (depth + 1) ('\x7b' :: '"' :: t)
      = (readFields fuel depth [] ('"' :: t)).map fun (fields, r) => (.obj fields, r) := by
  simp [readValue, skipGaps_cons (c := '"') rfl]

theorem readsValues_succ (hitems : ReadsItems fuel) (hfields : ReadsFields fuel) :
    ReadsValues (fuel + 1) := by
  intro depth j rest hfits hfuel hrest
  cases j with
  | null => rfl
  | bool b => cases b <;> rfl
  | int n => exact readValue_int (fits_int.mp hfits) hrest fuel depth
  | real literal => exact readValue_real (fits_real.mp hfits) hrest fuel depth
  | str t =>
    rw [render] at hfuel ⊢
    rw [quotedText, List.append_assoc, List.singleton_append, List.cons_append, readValue,
      readText_quoted hfuel]
    rfl
  | arr items =>
    obtain ⟨d, rfl, hall⟩ := fits_arr.mp hfits
    rw [render, List.append_assoc, List.singleton_append, List.cons_append]
    by_cases hne : items = []
    · subst hne
      rfl
    · rw [readValue_array ((beginsValue_items hne hall).append _), hitems rest hne hall (by
        simp only [render, List.length_append, List.length_cons, List.length_nil] at hfuel
        omega)]
      rfl
  | obj fields =>
    obtain ⟨d, rfl, hkeys, hall⟩ := fits_obj.mp hfits
    rw [render, List.append_assoc, List.singleton_append, List.cons_append]
    by_cases hne : fields = []
    · subst hne
      rfl
    · obtain ⟨u, hu⟩ := exists_fields_cons hne
      have hnew : (([] ++ fields).map Prod.fst).Nodup := hkeys
      have hread := hfields rest hne hall hnew (by
        simp only [render, List.length_append, List.length_cons, List.length_nil] at hfuel
        omega)
      rw [hu, List.cons_append] at hread ⊢
      rw [readValue_object, hread]
      rfl

theorem readsItems_succ (hvalues : ReadsValues fuel) (hitems : ReadsItems fuel) :
    ReadsItems (fuel + 1) := by
  intro depth items rest hne hall hfuel
  obtain ⟨i, items, rfl⟩ := List.exists_cons_of_ne_nil hne
  obtain ⟨hi, hrest⟩ := List.forall_mem_cons.mp hall
  cases items with
  | nil =>
    rw [renderItems, renderItems, Text.join_singleton] at hfuel ⊢
    rw [readItems, hvalues hi (Nat.le_of_lt_succ hfuel) (endsNumber_mark (.inr (.inl rfl)) rest)]
    rfl
  | cons i' items =>
    have hne' : i' :: items ≠ [] := List.cons_ne_nil i' items
    rw [renderItems, renderItems, Text.join_cons, ← renderItems, List.length_append,
      List.length_append, List.length_cons] at hfuel
    rw [renderItems, renderItems, Text.join_cons, ← renderItems, List.append_assoc, List.append_assoc,
      List.cons_append, List.singleton_append, readItems,
      hvalues hi (by omega) (endsNumber_mark (.inl rfl) _)]
    show (readItems fuel depth (skipGaps (' ' :: (Text.join [',', ' '] (renderItems (i' :: items))
      ++ ']' :: rest)))).map _ = _
    rw [((beginsValue_items hne' hrest).append _).skipGaps_space, hitems rest hne' hrest (by omega)]
    rfl

/-- What is read of an object when the value of a field has been read. -/
def readAfterField (fuel depth : Nat) (fields : Fields) (t : Text) : Reading Fields :=
  match skipGaps t with
  | '\x7d' :: after => .ok (fields, after)
  | ',' :: after => readFields fuel depth fields (skipGaps after)
  | _ => .error .malformed

/-- A field is read back, and then what stands behind it decides. -/
theorem readFields_renderField (hvalues : ReadsValues fuel) {key : Text} {value : Json}
    (hvalue : value.Fits depth) (hfuel : (renderField (key, value)).length ≤ fuel) (acc : Fields)
    (hrest : EndsNumber rest) : readFields (fuel + 1) depth acc (renderField (key, value) ++ rest)
      = readAfterField fuel depth (acc.put key value) rest := by
  rw [renderField, List.length_append, List.length_cons, List.length_cons] at hfuel
  have hkey : ∀ behind, readText fuel (key.flatMap escapedChar ++ '"' :: behind) = .ok (key, behind) :=
    readText_quoted (by omega)
  have hskip := (hvalue.beginsValue.append rest).skipGaps_space
  have hread := hvalues hvalue (by omega) hrest
  rw [renderField, quotedText]
  simp only [List.append_assoc, List.cons_append, List.nil_append, readFields, hkey, skipGaps_cons (c := ':') rfl,
    hskip, hread]
  rfl

theorem readsFields_succ (hvalues : ReadsValues fuel) (hfields : ReadsFields fuel) :
    ReadsFields (fuel + 1) := by
  intro depth acc fields rest hne hall hkeys hfuel
  obtain ⟨⟨key, value⟩, fields, rfl⟩ := List.exists_cons_of_ne_nil hne
  obtain ⟨hfirst, hrest⟩ := List.forall_mem_cons.mp hall
  have hvalue : value.Fits depth := hfirst
  have hput : acc.put key value = acc ++ [(key, value)] := Fields.put_of_not_mem (fun hkey => by
    rw [List.map_append, List.nodup_append] at hkeys
    exact hkeys.2.2 key hkey key List.mem_cons_self rfl) value
  cases fields with
  | nil =>
    rw [renderFields, renderFields, Text.join_singleton] at hfuel ⊢
    rw [readFields_renderField hvalues hvalue (Nat.le_of_lt_succ hfuel) acc
      (endsNumber_mark (.inr (.inr rfl)) rest), hput]
    rfl
  | cons f fields =>
    have hne' : f :: fields ≠ [] := List.cons_ne_nil f fields
    obtain ⟨u, hu⟩ := exists_fields_cons hne'
    rw [renderFields, renderFields, Text.join_cons, ← renderFields, List.length_append,
      List.length_append, List.length_cons, List.length_singleton] at hfuel
    rw [renderFields, renderFields, Text.join_cons, ← renderFields, List.append_assoc,
      List.append_assoc, List.cons_append, List.singleton_append,
      readFields_renderField hvalues hvalue (by omega) acc (endsNumber_mark (.inl rfl) _), hput]
    show readFields fuel depth (acc ++ [(key, value)])
      (skipGaps (Text.join [',', ' '] (renderFields (f :: fields)) ++ '\x7d' :: rest)) = _
    have hskip : skipGaps (Text.join [',', ' '] (renderFields (f :: fields)) ++ '\x7d' :: rest)
        = Text.join [',', ' '] (renderFields (f :: fields)) ++ '\x7d' :: rest := by
      rw [hu]
      rfl
    rw [List.append_cons] at hkeys
    rw [hskip, hfields rest hne' hrest hkeys (by omega), List.append_assoc]
    rfl

/-- Whatever is written is read back, with fuel for each of its characters. -/
theorem reads (fuel : Nat) : ReadsValues fuel ∧ ReadsItems fuel ∧ ReadsFields fuel := by
  induction fuel with
  | zero =>
    refine ⟨fun {depth j rest} hfits hfuel _ => ?_, fun _ _ _ h => absurd h (Nat.not_lt_zero _),
      fun _ _ _ _ h => absurd h (Nat.not_lt_zero _)⟩
    -- no value is written without a character
    obtain ⟨c, u, hrender, -⟩ := hfits.beginsValue
    rw [hrender] at hfuel
    exact absurd hfuel (Nat.not_succ_le_zero _)
  | succ fuel ih =>
    obtain ⟨hvalues, hitems, hfields⟩ := ih
    exact ⟨readsValues_succ hitems hfields, readsItems_succ hvalues hitems,
      readsFields_succ hvalues hfields⟩

/-- **A value that was written is read back**, as a document of its own. -/
theorem readWithin_render (h : j.Fits depth) : readWithin depth j.render = .ok j := by
  have hend : EndsNumber [] := by
    rintro c ⟨⟩
  have hread := (reads (2 * j.render.length + 2)).1 h (by omega) hend
  rw [List.append_nil] at hread
  rw [readWithin, h.beginsValue.skipGaps_eq, hread]
  rfl

end Json

end Provenance
