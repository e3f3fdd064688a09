/-
The contract of declarations.

Whatever finds declarations has to meet a contract before they are shown. The outline of
a Kotlin source always does, whatever the text: its kinds and names have a character that
is not blank, its lines count from one, and a body does not end before the line that its
header is on. The last of these is the one that takes an argument, since the lines that
headers are counted by and those that braces are counted by are not the same: a block is
only looked up by the line that it begins on, and no block ends before it begins.

So a text always has a unit, and the unit has the digest of the text.
-/
import Provenance.Outline.Language
import Provenance.Proofs.Outline.Identifier
import Provenance.Proofs.Order

set_option autoImplicit false

namespace Provenance.Outline

/-! ## Blocks -/

/-- No block ends before it begins, if the blocks that are open have begun. -/
theorem startLine_le_of_mem_scanFrom {line column : Nat} {opened : List (Nat × Nat)} {t : Text}
    (hopened : ∀ place ∈ opened, place.1 ≤ line) :
    ∀ b ∈ (scanFrom line column opened t).blocks, b.startLine ≤ b.endLine := by
  -- one case for each kind of character; only a closing brace makes a block
  induction t generalizing line column opened with
  | nil => simp [scanFrom]
  | cons c rest ih =>
    unfold scanFrom
    split
    · exact ih fun place hplace => Nat.le_succ_of_le (hopened place hplace)
    split
    · refine ih fun place hplace => ?_
      rcases List.mem_cons.mp hplace with rfl | hplace
      · exact Nat.le_refl _
      · exact hopened place hplace
    split
    · split
      · exact ih (by simp)
      · intro b hb
        rcases List.mem_cons.mp hb with rfl | hb
        · exact hopened _ (List.mem_cons_self ..)
        · exact ih (fun place hplace => hopened place (List.mem_cons_of_mem _ hplace)) b hb
    · exact ih hopened

/-- A block that is looked up does not end before the line that it is looked up by. -/
theorem line_le_of_endOf? {t : Text} {line column last : Nat}
    (h : (scanBraces t).endOf? line column = some last) : line ≤ last := by
  obtain ⟨b, hb, rfl⟩ := Option.map_eq_some_iff.mp h
  have hplace := List.find?_some hb
  simp only [decide_eq_true_eq] at hplace
  rw [← hplace.1]
  have hmem : b ∈ (scanFrom 1 1 [] t).blocks := mem_sortOn.mp (List.mem_of_find?_eq_some hb)
  exact startLine_le_of_mem_scanFrom (by simp) b hmem

/-- A body that is found is a block that is looked up by the line of the header or by one after it. -/
theorem exists_endOf?_of_bodyEnd? {scan : BraceScan} {budget depth line offset last : Nat} {part : Text}
    {following : List Text} (h : bodyEnd? scan budget depth line offset part following = some last) :
    ∃ opening column, line ≤ opening ∧ scan.endOf? opening column = some last := by
  -- the header is followed from line to line, until a body opens
  induction budget generalizing depth line offset part following with
  | zero => simp [bodyEnd?] at h
  | succ budget ih =>
    unfold bodyEnd? at h
    split at h
    · exact ⟨_, _, Nat.le_refl _, h⟩
    · simp at h
    · split at h
      · simp at h
      · split at h
        · simp at h
        · obtain ⟨opening, column, hle, hend⟩ := ih h
          exact ⟨opening, column, Nat.le_of_succ_le hle, hend⟩

/-- No body ends before the line that its header is on. -/
theorem line_le_of_bodyEnd? {t : Text} {budget depth line offset last : Nat} {part : Text}
    {following : List Text}
    (h : bodyEnd? (scanBraces t) budget depth line offset part following = some last) :
    line ≤ last := by
  obtain ⟨opening, column, hle, hend⟩ := exists_endOf?_of_bodyEnd? h
  exact hle.trans (line_le_of_endOf? hend)

/-! ## Declarations -/

/-- What a declaration has to meet. -/
theorem breach?_eq_none {d : Declaration} (hkind : d.kind.trim ≠ []) (hname : d.name.trim ≠ [])
    (hscope : ∀ label, d.scope ≠ .unknown label) (hparent : d.scope = .topLevel → d.parent = none)
    (hstart : 1 ≤ d.startLine) (hend : d.startLine ≤ d.endLine) : d.trimmed.breach? = none := by
  have hparent' : d.scope = .topLevel → trimmed? d.parent = none := fun h => by
    rw [hparent h]
    rfl
  unfold Declaration.breach? Declaration.trimmed
  dsimp only
  rw [if_neg hkind, if_neg hname]
  split
  · rename_i label hlabel
    exact absurd hlabel (hscope label)
  · rw [if_neg (Int.not_lt.mpr hstart), if_neg (Int.not_lt.mpr hend), if_neg]
    exact fun h => h.2 (hparent' h.1)

section Arranging

variable {ds : List Declaration}

/-- What meets the contract is trimmed and sorted. -/
theorem arrange_eq (h : ∀ d ∈ ds, d.trimmed.breach? = none) :
    arrange ds = .ok (sortBy Declaration.order (ds.map Declaration.trimmed)) := by
  have hnone : (ds.map Declaration.trimmed).findSome? Declaration.breach? = none :=
    List.findSome?_eq_none_iff.mpr (List.forall_mem_map.mpr h)
  unfold arrange
  dsimp only
  rw [hnone]

/-- What meets the contract, and is trimmed and in order, is arranged already. -/
theorem arrange_eq_self (h : ∀ d ∈ ds, d.trimmed.breach? = none) (htrimmed : ∀ d ∈ ds, d.trimmed = d)
    (hsorted : ds.Pairwise fun d e => (d.order e).isLE = true) : arrange ds = .ok ds := by
  have hmap : ds.map Declaration.trimmed = ds := (List.map_congr_left htrimmed).trans (List.map_id' ds)
  rw [arrange_eq h, hmap, sortBy_eq_self hsorted]

end Arranging

namespace Kotlin

theorem kindOf_trim (h : Header) : (kindOf h).trim ≠ [] := by
  unfold kindOf
  split
  · exact Text.trim_ne_nil (c := '_') (by simp) (by decide)
  · cases h.keyword <;> decide

/-- Where a declaration stands is known, and one at the top has no parent. -/
theorem scope_nesting (package : Option Text) (opened : List OpenBody) (depth : Nat)
    (name : Option Text) :
    (∀ label, (nesting package opened depth name).1 ≠ .unknown label)
      ∧ ((nesting package opened depth name).1 = .topLevel →
        (nesting package opened depth name).2.1 = none) := by
  unfold nesting
  split
  · simp
  · split
    · simp
    · split <;> simp

/-- Nothing that is found in a text breaks the contract. -/
theorem breach?_of_mem_declarationsFrom {package : Option Text} {t : Text} {line : Nat}
    {opened : List OpenBody} {lines : List Text} {depths : List Nat} (hline : 1 ≤ line) :
    ∀ d ∈ declarationsFrom package (scanBraces t) line opened lines depths,
      d.trimmed.breach? = none := by
  induction lines generalizing line opened depths with
  | nil => simp [declarationsFrom]
  | cons text later ih =>
    have hnext : 1 ≤ line + 1 := Nat.le_add_left 1 line
    cases depths with
    | nil => simp [declarationsFrom]
    | cons depth depths =>
      unfold declarationsFrom
      split
      · exact ih hnext
      rename_i header hheader
      dsimp only
      intro d hd
      rcases List.mem_cons.mp hd with rfl | hd
      swap
      · exact ih hnext d hd
      -- the declaration of this line
      refine breach?_eq_none (kindOf_trim header) ?_ (scope_nesting ..).1 (scope_nesting ..).2 ?_ ?_
      · cases hname : nameOf header with
        | none => exact (by decide : anonymousName.trim ≠ [])
        | some name => exact (isIdent_of_nameOf hheader hname).trim_ne_nil
      · exact Int.ofNat_le.mpr hline
      · refine Int.ofNat_le.mpr ?_
        cases hend : bodyEnd? (scanBraces t) headerLines 0 line
          (text.length - header.rest.length) header.rest later with
        | none => exact Nat.le_refl _
        | some last => exact line_le_of_bodyEnd? hend

theorem breach?_of_mem_declarationsOf (masked : Text) :
    ∀ d ∈ declarationsOf masked, d.trimmed.breach? = none :=
  breach?_of_mem_declarationsFrom (Nat.le_refl 1)

theorem parse_ok (path text : Text) :
    ∃ unit, parse path text = .ok unit ∧ unit.digest = Digest.ofText text := by
  unfold parse
  dsimp only
  rw [arrange_eq (breach?_of_mem_declarationsOf _)]
  exact ⟨_, rfl, rfl⟩

end Kotlin

/-! ## Units -/

/-- The languages that are known are two. -/
theorem kotlin_or_plain {path : Text} {language : Language}
    (h : Languages.standard.select? path = some language) :
    language = .kotlin ∨ language = .plain := by
  rcases Option.or_eq_some_iff.mp h with h | ⟨-, h⟩
  · exact .inl (List.mem_singleton.mp (List.mem_of_find?_eq_some h))
  · exact .inr (Option.some.inj h).symm

/-- A text has a unit, and the unit has the digest of the text. -/
theorem parseUnit_ok (path text : Text) :
    ∃ unit, parseUnit path text = .ok unit ∧ unit.digest = Digest.ofText text := by
  unfold parseUnit
  split
  · rename_i language hselect
    rcases kotlin_or_plain hselect with rfl | rfl
    · exact Kotlin.parse_ok path text
    · exact ⟨_, rfl, rfl⟩
  · exact ⟨_, rfl, rfl⟩

end Provenance.Outline
