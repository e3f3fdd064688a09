/-
What is written of a value.

The fields of an object are written in the order of their names, so that what is read back is not
the value itself but one that differs from it in the order of fields alone. Neither a break nor any
other character that is not visible in plain text can be in what is written: of a text such
characters are escaped, and everything else is digits, marks and words.
-/
import Provenance.Proofs.Json.RoundTrip

set_option autoImplicit false

namespace Provenance.Json

variable {depth : Nat} {j : Json} {c : Char} {t : Text} {items : List Json} {fields : Fields}

/-! ## The order of fields -/

/-- The values are the same but for the order of the fields in their objects. -/
inductive Same : Json → Json → Prop
  | refl (j : Json) : Same j j
  | arr {items items' : List Json} (h : List.Forall₂ Same items items') :
      Same (.arr items) (.arr items')
  | obj {fields fields' ordered : Fields} (hnames : fields'.map Prod.fst = fields.map Prod.fst)
      (hvalues : List.Forall₂ Same (fields.map Prod.snd) (fields'.map Prod.snd))
      (horder : ordered.Perm fields') : Same (.obj fields) (.obj ordered)

theorem exists_same_of_mem {fields' : Fields} (hnames : fields'.map Prod.fst = fields.map Prod.fst)
    (hvalues : List.Forall₂ Same (fields.map Prod.snd) (fields'.map Prod.snd)) {f : Text × Json}
    (hf : f ∈ fields) : ∃ v, (f.1, v) ∈ fields' ∧ Same f.2 v := by
  induction fields generalizing fields' with
  | nil => exact absurd hf List.not_mem_nil
  | cons g fields ih =>
    cases fields' with
    | nil => exact nomatch hnames
    | cons g' fields' =>
      obtain ⟨hname, hnames⟩ := List.cons.inj hnames
      obtain ⟨hvalue, hvalues⟩ := List.forall₂_cons.mp hvalues
      rcases List.mem_cons.mp hf with rfl | hf
      · exact ⟨g'.2, by rw [← hname]; exact List.mem_cons_self, hvalue⟩
      · obtain ⟨v, hv, hsame⟩ := ih hnames hvalues hf
        exact ⟨v, List.mem_cons_of_mem _ hv, hsame⟩

/-- The same object has the same names, and under each of them the same value. -/
theorem Same.exists_field (h : Same (.obj fields) j) : ∃ ordered, j = .obj ordered
    ∧ (ordered.map Prod.fst).Perm (fields.map Prod.fst)
    ∧ ∀ f ∈ fields, ∃ v, (f.1, v) ∈ ordered ∧ Same f.2 v := by
  cases h with
  | refl => exact ⟨fields, rfl, .refl _, fun f hf => ⟨f.2, hf, .refl _⟩⟩
  | obj hnames hvalues horder =>
    refine ⟨_, rfl, hnames ▸ horder.map Prod.fst, fun f hf => ?_⟩
    obtain ⟨v, hv, hsame⟩ := exists_same_of_mem hnames hvalues hf
    exact ⟨v, horder.mem_iff.mpr hv, hsame⟩

theorem Same.eq_of_str (h : Same (.str t) j) : j = .str t := by
  cases h
  rfl

theorem sortValues_names (fields : Fields) : (sortValues fields).map Prod.fst = fields.map Prod.fst := by
  induction fields with
  | nil => rfl
  | cons f fields ih => rw [sortValues, List.map_cons, ih, List.map_cons, sortValue]

mutual

/-- Sorting changes the order of fields alone. -/
theorem same_sortFields : ∀ j : Json, Same j j.sortFields
  | .null | .bool _ | .int _ | .real _ | .str _ => .refl _
  | .arr items => .arr (same_sortItems items)
  | .obj fields => .obj (sortValues_names fields) (same_sortValues fields) (perm_sortBy _ _)

theorem same_sortItems : ∀ items : List Json, List.Forall₂ Same items (sortItems items)
  | [] => .nil
  | item :: items => .cons (same_sortFields item) (same_sortItems items)

theorem same_sortValues : ∀ fields : List (Text × Json),
    List.Forall₂ Same (fields.map Prod.snd) ((sortValues fields).map Prod.snd)
  | [] => .nil
  | f :: fields => .cons (same_sortValue f) (same_sortValues fields)

theorem same_sortValue : ∀ f : Text × Json, Same f.2 (sortValue f).2
  | (_, value) => same_sortFields value

end

mutual

/-- What can be written can be written sorted. -/
theorem fits_sortFields : ∀ {depth : Nat} {j : Json}, j.Fits depth → j.sortFields.Fits depth
  | _, .null, h | _, .bool _, h | _, .int _, h | _, .real _, h | _, .str _, h => h
  | 0, .arr _, h | 0, .obj _, h => h
  | _ + 1, .arr _, h => itemsFit_sortItems h
  | depth + 1, .obj fields, ⟨hnames, hfields⟩ => by
    have hperm : (sortOn Prod.fst (sortValues fields)).Perm (sortValues fields) := perm_sortBy _ _
    have hall : ∀ f ∈ sortValues fields, f.2.Fits depth := fieldsFit_iff.mp (fieldsFit_sortValues hfields)
    refine ⟨(hperm.map Prod.fst).nodup_iff.mpr ?_, fieldsFit_iff.mpr fun f hf => hall f (hperm.mem_iff.mp hf)⟩
    rwa [sortValues_names]

theorem itemsFit_sortItems : ∀ {depth : Nat} {items : List Json}, ItemsFit depth items →
    ItemsFit depth (sortItems items)
  | _, [], _ => trivial
  | _, _ :: _, h => ⟨fits_sortFields h.1, itemsFit_sortItems h.2⟩

theorem fieldsFit_sortValues : ∀ {depth : Nat} {fields : List (Text × Json)}, FieldsFit depth fields →
    FieldsFit depth (sortValues fields)
  | _, [], _ => trivial
  | _, _ :: _, h => ⟨fieldFits_sortValue h.1, fieldsFit_sortValues h.2⟩

theorem fieldFits_sortValue : ∀ {depth : Nat} {f : Text × Json}, FieldFits depth f →
    FieldFits depth (sortValue f)
  | _, (_, _), h => fits_sortFields h

end

/-- **What was written with its fields sorted is read back** with its fields sorted. -/
theorem read_renderSorted (h : j.Fits maxNesting) : read j.renderSorted = .ok j.sortFields :=
  readWithin_render (fits_sortFields h)

/-! ## Plain text -/

/-- The text has visible characters of plain text and spaces alone. -/
def Plain (t : Text) : Prop := ∀ c ∈ t, 0x20 ≤ c.toNat ∧ c.toNat < 0x7F

instance (t : Text) : Decidable (Plain t) := List.decidableBAll _ t

theorem Plain.append {u : Text} (h : Plain t) (hu : Plain u) : Plain (t ++ u) := fun c hc =>
  (List.mem_append.mp hc).elim (h c) (hu c)

theorem plain_join {ts : List Text} (h : ∀ t ∈ ts, Plain t) : Plain (Text.join [',', ' '] ts) := fun c hc =>
  (Text.mem_join hc).elim (fun hc => (by decide : Plain [',', ' ']) c hc) fun ⟨t, ht, hc⟩ => h t ht c hc

theorem plain_hexText (width n : Nat) : Plain (hexText width n) := by
  have hdigit : ∀ k < 16, 0x20 ≤ (hexDigit k).toNat ∧ (hexDigit k).toNat < 0x7F := by decide
  induction width generalizing n with
  | zero => exact fun c hc => absurd hc List.not_mem_nil
  | succ width ih =>
    refine (ih _).append fun c hc => ?_
    rw [List.mem_singleton.mp hc]
    exact hdigit _ (Nat.mod_lt _ (by decide))

theorem plain_unitEscape (n : Nat) : Plain (unitEscape n) :=
  Plain.append (by decide : Plain ['\\', 'u']) (plain_hexText 4 n)

theorem plain_escapedChar (c : Char) : Plain (escapedChar c) := by
  unfold escapedChar
  split_ifs with h₁ h₂ h₃ h₄ h₅ h₆ h₇ hplain
  -- a character that is plain stands for itself, and all others are escaped
  all_goals first
    | decide
    | exact fun d hd => List.mem_singleton.mp hd ▸ hplain
    | exact plain_unitEscape _
    | exact (plain_unitEscape _).append (plain_unitEscape _)

theorem plain_quotedText (t : Text) : Plain (quotedText t) := by
  refine (Plain.append (by decide : Plain ['"']) fun c hc => ?_).append (by decide)
  obtain ⟨d, -, hd⟩ := List.mem_flatMap.mp hc
  exact plain_escapedChar d c hd

theorem plain_of_isDigit (h : ∀ c ∈ t, isDigit c = true) : Plain t := fun c hc => by
  have hd := h c hc
  simp only [isDigit, Bool.and_eq_true, decide_eq_true_eq, Char.le_def, UInt32.le_iff_toNat_le] at hd
  have hrange : 48 ≤ c.toNat ∧ c.toNat ≤ 57 := hd
  omega

theorem plain_ofNat (n : Nat) : Plain (Text.ofNat n) := plain_of_isDigit fun _ => isDigit_of_mem_ofNat

theorem plain_ofInt (n : Int) : Plain (Text.ofInt n) := by
  cases n with
  | ofNat n => exact plain_ofNat n
  | negSucc n => exact Plain.append (by decide : Plain ['-']) (plain_ofNat (n + 1))

theorem IsWhole.plain (h : IsWhole t) : Plain t := by
  rcases h with rfl | ⟨h, -⟩
  · decide
  · exact plain_of_isDigit h.2

theorem IsFraction.plain (h : IsFraction t) : Plain t := by
  rcases h with rfl | ⟨digits, rfl, h⟩
  · decide
  · exact Plain.append (by decide : Plain ['.']) (plain_of_isDigit h.2)

theorem IsExponent.plain (h : IsExponent t) : Plain t := by
  rcases h with rfl | ⟨e, sign, digits, rfl, he, hsign, h⟩
  · decide
  · have hmarks : Plain (e :: sign) := by
      rcases he with rfl | rfl <;> rcases hsign with rfl | rfl | rfl <;> decide
    exact hmarks.append (plain_of_isDigit h.2)

theorem IsReal.plain (h : IsReal t) : Plain t := by
  rcases h with h | ⟨negative, digits, fraction, exponent, rfl, hdigits, hfraction, hexponent, -⟩
  · simp only [List.mem_cons, List.not_mem_nil, or_false] at h
    rcases h with rfl | rfl | rfl <;> decide
  · have hsign : Plain (if negative then ['-'] else []) := by cases negative <;> decide
    exact (hsign.append hdigits.plain).append (hfraction.plain.append hexponent.plain)

mutual

/-- **A value is written in plain text.** -/
theorem Fits.plain : ∀ {depth : Nat} {j : Json}, j.Fits depth → Plain j.render
  | _, .null, _ | _, .bool true, _ | _, .bool false, _ => by decide
  | _, .int n, _ => plain_ofInt n
  | _, .real _, h => (fits_real.mp h).plain
  | _, .str t, _ => plain_quotedText t
  | 0, .arr _, h | 0, .obj _, h => False.elim h
  | _ + 1, .arr items, h =>
    (Plain.append (by decide : Plain ['[']) (plain_join (plain_renderItems h))).append (by decide)
  | _ + 1, .obj fields, h =>
    (Plain.append (by decide : Plain ['\x7b']) (plain_join (plain_renderFields h.2))).append (by decide)

theorem plain_renderItems : ∀ {depth : Nat} {items : List Json}, ItemsFit depth items →
    ∀ t ∈ renderItems items, Plain t
  | _, [], _ => fun _ h => absurd h List.not_mem_nil
  | _, _ :: _, h => List.forall_mem_cons.mpr ⟨h.1.plain, plain_renderItems h.2⟩

theorem plain_renderFields : ∀ {depth : Nat} {fields : List (Text × Json)}, FieldsFit depth fields →
    ∀ t ∈ renderFields fields, Plain t
  | _, [], _ => fun _ h => absurd h List.not_mem_nil
  | _, _ :: _, h => List.forall_mem_cons.mpr ⟨plain_renderField h.1, plain_renderFields h.2⟩

theorem plain_renderField : ∀ {depth : Nat} {f : Text × Json}, FieldFits depth f → Plain (renderField f)
  | _, (key, _), h => (plain_quotedText key).append
    (Plain.append (by decide : Plain [':', ' ']) (Fits.plain h))

end

end Provenance.Json
