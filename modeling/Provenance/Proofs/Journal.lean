/-
Lines of the journal.

The journal is read back line by line, so that an event must not have a break in it. It has
none: what is written of a text is escaped, and everything else in an event is digits, marks
and words. Only a number that is no integer is written as it was given, and no event of a cycle
has one.
-/
import Provenance.Project
import Provenance.Proofs.Order
import Provenance.Proofs.Path

set_option autoImplicit false

namespace Provenance

/-! ## Values without a break -/

theorem newline_not_mem_hexText (width n : Nat) : '\n' ∉ hexText width n := by
  have hdigit : ∀ k < 16, Nat.digitChar k ≠ '\n' := by decide
  induction width generalizing n with
  | zero => simp [hexText]
  | succ width ih =>
    rw [hexText, List.mem_append, List.mem_singleton, not_or]
    exact ⟨ih _, (hdigit _ (Nat.mod_lt _ (by decide))).symm⟩

theorem newline_not_mem_ofNat (n : Nat) : '\n' ∉ Text.ofNat n := fun h =>
  absurd (Nat.isDigit_of_mem_toDigits (by decide) (by decide) h) (by decide)

theorem newline_not_mem_ofInt (n : Int) : '\n' ∉ Text.ofInt n := by
  cases n with
  | ofNat n => exact newline_not_mem_ofNat n
  | negSucc n =>
    rw [Text.ofInt, List.mem_cons, not_or]
    exact ⟨by decide, newline_not_mem_ofNat (n + 1)⟩

namespace Json

theorem newline_not_mem_unitEscape (n : Nat) : '\n' ∉ unitEscape n := by
  rw [unitEscape, List.mem_cons, List.mem_cons, not_or, not_or]
  exact ⟨by decide, by decide, newline_not_mem_hexText 4 n⟩

theorem newline_not_mem_escapedChar (c : Char) : '\n' ∉ escapedChar c := by
  by_cases hbreak : c = '\n'
  · rw [hbreak]
    decide
  unfold escapedChar
  split_ifs
  -- a character that stands for itself is no break, and all others are escaped
  all_goals first
    | decide
    | exact fun h => hbreak (List.mem_singleton.mp h).symm
    | exact newline_not_mem_unitEscape _
    | exact fun h => (List.mem_append.mp h).elim (newline_not_mem_unitEscape _)
        (newline_not_mem_unitEscape _)

theorem newline_not_mem_quotedText (t : Text) : '\n' ∉ quotedText t := by
  rw [quotedText, List.mem_append, List.mem_cons, not_or, not_or]
  refine ⟨⟨by decide, fun h => ?_⟩, by decide⟩
  obtain ⟨c, -, hc⟩ := List.mem_flatMap.mp h
  exact newline_not_mem_escapedChar c hc

/-- The value is written without a break. -/
def OnOneLine (j : Json) : Prop := '\n' ∉ j.renderSorted

instance (j : Json) : Decidable j.OnOneLine := inferInstanceAs (Decidable (_ ∉ _))

@[simp]
theorem onOneLine_str (t : Text) : OnOneLine (.str t) := newline_not_mem_quotedText t

@[simp]
theorem onOneLine_int (n : Int) : OnOneLine (.int n) := newline_not_mem_ofInt n

@[simp]
theorem onOneLine_ofNat (n : Nat) : OnOneLine (.ofNat n) := onOneLine_int n

@[simp]
theorem onOneLine_bool (b : Bool) : OnOneLine (.bool b) := by cases b <;> decide

@[simp]
theorem onOneLine_ofText? (t : Option Text) : OnOneLine (.ofText? t) := by
  cases t with
  | none => decide
  | some t => exact onOneLine_str t

theorem newline_not_mem_join {ts : List Text} (h : ∀ t ∈ ts, '\n' ∉ t) :
    '\n' ∉ Text.join [',', ' '] ts := fun hmem =>
  (Text.mem_join hmem).elim (by decide) fun ⟨t, ht, hbreak⟩ => h t ht hbreak

theorem onOneLine_arr {items : List Json} (h : ∀ j ∈ items, j.OnOneLine) : OnOneLine (.arr items) := by
  have hitems : ∀ t ∈ renderItems (sortItems items), '\n' ∉ t := by
    induction items with
    | nil => simp [sortItems, renderItems]
    | cons j items ih =>
      rw [sortItems, renderItems, List.forall_mem_cons]
      exact ⟨h j (List.mem_cons_self ..), ih fun i hi => h i (List.mem_cons_of_mem _ hi)⟩
  show '\n' ∉ '[' :: Text.join [',', ' '] (renderItems (sortItems items)) ++ [']']
  rw [List.mem_append, List.mem_cons, not_or, not_or]
  exact ⟨⟨by decide, newline_not_mem_join hitems⟩, by decide⟩

@[simp]
theorem onOneLine_ofTexts (ts : List Text) : OnOneLine (.ofTexts ts) := by
  refine onOneLine_arr fun j hj => ?_
  obtain ⟨t, -, rfl⟩ := List.mem_map.mp hj
  exact onOneLine_str t

theorem mem_renderFields {t : Text} {fields : Fields} :
    t ∈ renderFields fields ↔ ∃ f ∈ fields, renderField f = t := by
  induction fields with
  | nil => simp [renderFields]
  | cons f fields ih => simp [renderFields, ih, eq_comm]

theorem mem_sortValues {f : Text × Json} {fields : Fields} :
    f ∈ sortValues fields ↔ ∃ g ∈ fields, sortValue g = f := by
  induction fields with
  | nil => simp [sortValues]
  | cons g fields ih => simp [sortValues, ih, eq_comm]

@[simp]
theorem field_snd (name : String) (value : Json) : (field name value).2 = value := rfl

theorem onOneLine_obj {fields : Fields} (h : ∀ f ∈ fields, f.2.OnOneLine) : OnOneLine (.obj fields) := by
  have hfields : ∀ t ∈ renderFields (sortOn Prod.fst (sortValues fields)), '\n' ∉ t := by
    intro t ht
    obtain ⟨f, hf, rfl⟩ := mem_renderFields.mp ht
    obtain ⟨⟨key, value⟩, hg, rfl⟩ := mem_sortValues.mp (mem_sortOn.mp hf)
    show '\n' ∉ quotedText key ++ ':' :: ' ' :: value.renderSorted
    rw [List.mem_append, List.mem_cons, List.mem_cons, not_or, not_or, not_or]
    exact ⟨newline_not_mem_quotedText key, by decide, by decide, h _ hg⟩
  show '\n' ∉ '\x7b' :: Text.join [',', ' '] (renderFields (sortOn Prod.fst (sortValues fields))) ++ ['\x7d']
  rw [List.mem_append, List.mem_cons, not_or, not_or]
  exact ⟨⟨by decide, newline_not_mem_join hfields⟩, by decide⟩

end Json

/-! ## Events -/

open Json

/-- The bytes are a line of text: the one break in it is at its end. -/
def Journal.IsLine (bytes : Bytes) : Prop :=
  ∃ line : Text, '\n' ∉ line ∧ bytes = Utf8.encode (line ++ ['\n'])

theorem Event.newline_not_mem_line {e : Event} (h : ∀ f ∈ e.metadata, f.2.OnOneLine) : '\n' ∉ e.line :=
  onOneLine_obj (by simpa using onOneLine_obj h)

namespace Session

/-- A cycle that was reported is one line. -/
theorem newline_not_mem_eventOfReport (n : Nat) (r : Report) : '\n' ∉ (eventOfReport n r).line :=
  Event.newline_not_mem_line (by simp [eventOfReport, Report.summary])

/-- So is a cycle that failed. -/
theorem newline_not_mem_eventOfFailure (operation cycleId timestamp : Text) (n : Nat) (f : Failure) :
    '\n' ∉ (eventOfFailure operation cycleId timestamp n f).line :=
  Event.newline_not_mem_line (by simp [eventOfFailure])

end Session

end Provenance
