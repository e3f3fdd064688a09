/-
Artifact paths and the form they come to.

Of a path that is accepted only names are left, and the text of these names is a form of the path of
its own: it spells the same artifact without backslashes, superfluous slashes and dots. It would be
expected to be accepted as well and to lead to the same place. But a path is looked at before empty
pieces and dots are left out, and these may hide what is looked for. A blank at the beginning of the
first name, or at the end of the last, is not taken off while a dot and a slash stand before it or
behind it, and a drive behind them is not refused. So a path may come to a form that does not lead to
the artifact, and `locate_form_iff` says which do.
-/
import Provenance.Proofs.Path.Lexical
import Provenance.Proofs.Session.Artifacts

set_option autoImplicit false

namespace Provenance

variable {names : List Text}

/-! ## Texts that are part of others -/

/-- What was cut at one character and is joined with another has the one for the other. -/
theorem Text.join_splitOn_replace (old new : Char) (t : Text) :
    Text.join [new] (Text.splitOn old t) = t.replaceChar old new := by
  induction t with
  | nil => rfl
  | cons c t ih =>
    obtain ⟨piece, pieces, hpieces⟩ := List.exists_cons_of_ne_nil (Text.splitOn_ne_nil old t)
    rw [hpieces, Text.replaceChar] at ih
    rw [Text.splitOn, hpieces, Text.replaceChar, List.map_cons, ← ih]
    split
    · rw [Text.join_cons]
      rfl
    · cases pieces with
      | nil => rw [Text.join_singleton, Text.join_singleton]
      | cons next pieces => rw [Text.join_cons, Text.join_cons, List.cons_append, List.cons_append]

/-- Cut pieces are joined to what they were cut from. -/
theorem Text.join_splitOn (sep : Char) (t : Text) : Text.join [sep] (Text.splitOn sep t) = t := by
  rw [Text.join_splitOn_replace, Text.replaceChar]
  exact List.map_id'' (fun c => ite_eq_right_iff.mpr Eq.symm) t

/-- Fewer texts have a shorter text, which can be had from the longer one by leaving out. -/
theorem Text.join_sublist (sep : Text) {ts us : List Text} (h : ts.Sublist us) :
    (Text.join sep ts).Sublist (Text.join sep us) := by
  induction h with
  | slnil => exact List.Sublist.refl _
  | @cons ts us u h ih =>
    cases us with
    | nil =>
      rw [List.sublist_nil.mp h]
      exact List.nil_sublist _
    | cons v us =>
      rw [Text.join_cons]
      exact ih.trans (List.sublist_append_right _ _)
  | @cons_cons ts us u h ih =>
    cases ts with
    | nil =>
      rw [Text.join_singleton]
      cases us with
      | nil => rw [Text.join_singleton]
      | cons v us =>
        rw [Text.join_cons, List.append_assoc]
        exact List.sublist_append_left _ _
    | cons t ts =>
      obtain ⟨v, us, rfl⟩ := List.exists_cons_of_ne_nil
        (fun hnil => absurd (List.sublist_nil.mp (hnil ▸ h)) (List.cons_ne_nil t ts) : us ≠ [])
      rw [Text.join_cons, Text.join_cons]
      exact ih.append_left _

/-- The text of the names that are in a text can be had from it by leaving out. -/
theorem Path.join_namesIn_sublist (t : Text) : (Text.join ['/'] (namesIn t)).Sublist t := by
  have hpieces := Text.join_sublist ['/'] (List.filter_sublist : (namesIn t).Sublist (t.splitOn '/'))
  rwa [Text.join_splitOn] at hpieces

theorem Text.trim_sublist (t : Text) : t.trim.Sublist t := by
  have hright : ∀ u : Text, (Text.trimRight u).Sublist u := fun u => by
    rw [Text.trimRight, Text.dropRightWhile, ← List.reverse_sublist, List.reverse_reverse]
    exact List.dropWhile_sublist _
  exact (hright _).trans (List.dropWhile_sublist _)

namespace Artifact

variable {outputRoot p : Path} {raw : Text}

/-! ## Reading a path again -/

/-- A path in the form that its names have is read as it stands, up to the blanks around it. -/
theorem cleaned_join (h : ∀ n ∈ names, '\\' ∉ n) :
    cleaned (Text.join ['/'] names) = (Text.join ['/'] names).trim := by
  have hslash : '\\' ∉ Text.join ['/'] names := by
    intro hmem
    rcases Text.mem_join hmem with hsep | ⟨n, hn, hmem⟩
    · exact absurd hsep (by decide)
    · exact h n hn hmem
  rw [cleaned, Text.replaceChar_of_not_mem hslash]

/-- Nothing is taken off the text of names that it still has afterwards. -/
theorem trim_join_of_namesIn (h : Path.namesIn (Text.join ['/'] names).trim = names) :
    (Text.join ['/'] names).trim = Text.join ['/'] names := by
  have hpart := Path.join_namesIn_sublist (Text.join ['/'] names).trim
  rw [h] at hpart
  exact (Text.trim_sublist _).antisymm hpart

theorem hasDrive_of_namesOf (h : namesOf raw = .ok names) : hasDrive (cleaned raw) = false := by
  rw [← Bool.not_eq_true]
  intro hdrive
  unfold namesOf at h
  simp only [hdrive, Bool.or_true, if_true] at h
  split at h <;> exact absurd h (by simp)

/-- Names whose text has no blanks around it and begins with no drive are what that text is read as. -/
theorem namesOf_join (hne : names ≠ []) (hnames : ∀ n ∈ names, Path.IsName n)
    (hclean : cleaned (Text.join ['/'] names) = Text.join ['/'] names)
    (hdrive : hasDrive (Text.join ['/'] names) = false) :
    namesOf (Text.join ['/'] names) = .ok names := by
  have hpieces : ∀ n ∈ names, Path.IsPiece n := fun n hn => (hnames n hn).1
  have hempty : (Text.join ['/'] names).isEmpty = false :=
    List.isEmpty_eq_false_iff.mpr (Path.join_ne_nil hne hpieces)
  have hslash : (Text.join ['/'] names).startsWith ['/'] = false :=
    (Path.anchorOf_eq_here_iff _).mp (Path.anchorOf_join hpieces)
  have hup : names.contains Path.upName = false := by
    rw [← Bool.not_eq_true, List.contains_iff_mem]
    exact fun hmem => (hnames _ hmem).2 rfl
  have hsome : names.isEmpty = false := List.isEmpty_eq_false_iff.mpr hne
  unfold namesOf
  simp only [hclean, hempty, hslash, hdrive, Path.namesIn_join hpieces, hup, hsome, Bool.or_self,
    Bool.false_eq_true, if_false]

/-- A path that is accepted comes to a form of its own, its key seen from the output directory. That form
leads to the same artifact exactly if there are no blanks around it and it begins with no drive. -/
theorem locate_form_iff (h : locate outputRoot raw = .ok p) :
    ∃ form, p.key outputRoot = .ok form
      ∧ (locate outputRoot form = .ok p ↔ form.trim = form ∧ hasDrive form = false) := by
  obtain ⟨names, hne, hclean, rfl⟩ := locate_clean h
  have hnames : ∀ n ∈ names, Path.IsName n := fun n hn => (hclean n hn).1
  have hread := cleaned_join fun n hn => (hclean n hn).2
  refine ⟨_, Path.key_descend outputRoot hne fun n hn => (hnames n hn).1, fun hagain => ?_, ?_⟩
  · -- the same artifact is the same names, so nothing was taken off, and no drive was seen
    obtain ⟨again, hagain, hdescend⟩ := descend_of_locate hagain
    obtain rfl : names = again := List.append_cancel_left (Path.mk.inj hdescend).2
    have htrim := trim_join_of_namesIn (hread ▸ (of_namesOf hagain).1).symm
    refine ⟨htrim, ?_⟩
    have hdrive := hasDrive_of_namesOf hagain
    rwa [hread, htrim] at hdrive
  · rintro ⟨htrim, hdrive⟩
    rw [locate, namesOf_join hne hnames (hread.trans htrim) hdrive]
    rfl

/-- The output directory of a small project. -/
def smallOut : Path := ⟨.root, ["p".toList, "bin".toList]⟩

theorem locate_form_small :
    locate smallOut " .//a b\\.\\C:/D.class".toList
        = .ok (smallOut.descend ["a b".toList, "C:".toList, "D.class".toList])
      ∧ ∃ form, (smallOut.descend ["a b".toList, "C:".toList, "D.class".toList]).key smallOut = .ok form
        ∧ locate smallOut form = .ok (smallOut.descend ["a b".toList, "C:".toList, "D.class".toList]) := by
  have h : locate smallOut " .//a b\\.\\C:/D.class".toList
      = .ok (smallOut.descend ["a b".toList, "C:".toList, "D.class".toList]) := by decide +kernel
  obtain ⟨form, hform, hiff⟩ := locate_form_iff h
  obtain rfl : "a b/C:/D.class".toList = form := Except.ok.inj ((by decide +kernel : _ = _).trans hform)
  exact ⟨h, _, hform, hiff.mpr (by decide +kernel)⟩

/-- A dot and a slash hide a drive and a blank: the first path is accepted and its form is refused, the
second leads to one artifact and its form to another. -/
theorem not_located_by_form :
    locate smallOut "./C:/X.class".toList = .ok (smallOut.descend ["C:".toList, "X.class".toList])
      ∧ (smallOut.descend ["C:".toList, "X.class".toList]).key smallOut = .ok "C:/X.class".toList
      ∧ locate smallOut "C:/X.class".toList = .error .rooted
      ∧ locate smallOut "./ X.class".toList = .ok (smallOut.descend [" X.class".toList])
      ∧ (smallOut.descend [" X.class".toList]).key smallOut = .ok " X.class".toList
      ∧ locate smallOut " X.class".toList = .ok (smallOut.descend ["X.class".toList]) := by
  decide +kernel

end Artifact

end Provenance
