/-
One text on the disk and in an editor.

A text comes to a set of sources in two ways. From the disk come its bytes, which are decoded by a reader that
unifies the breaks of files; from an editor comes the text itself. Either way breaks are unified before the
text is read, and unifying them twice is unifying them once, so the unit is the same. A text that an editor
commits right after it has been read from the disk is known by its digest, and its unit is the one that is
kept.

The lines of the unit are those of the unified text, as far as line feeds are counted. They are not where
characters that end lines for `splitLines` and not for a file stand in the code.
-/
import Provenance.Proofs.Outline.LineNumbers
import Provenance.Proofs.SourceSet.Requests
import Provenance.Proofs.Text.Breaks

set_option autoImplicit false

namespace Provenance

theorem Utf8.decodeLossy_encode (t : Text) : decodeLossy (encode t) = t := by
  rw [decodeLossy, pieces_encode, List.map_map]
  exact List.map_id' t

namespace SourceSet

open Action

variable {d d' : Disk} {s : SourceSet} {f : TrackedFile} {keys : List Text} {u : Text} {x : Location}
  {time : Int} {unit : Outline.SourceUnit}

/-- What is read of a file with an encoded text is the text with its breaks unified. -/
theorem textOf_encode (u : Text) : textOf (Utf8.encode u) = u.unifyBreaks := by
  rw [textOf, Utf8.decodeLossy_encode]

/-- A file that no unit is kept for has the unit of its text, which is kept then. -/
theorem unitOf_unkept (hknown : s.files = some keys) (hf : keys.contains f.path = true)
    (hnone : s.kept? f.path = none)
    (hstat : d.stat f.location = .ok (x, .file (Utf8.encode u) time))
    (hunit : Outline.parseUnit f.path u.unifyBreaks = .ok unit) :
    (unitOf d f).runOn s = (.ok (some unit),
      s.keep f.path ⟨Int.ofNat (Entry.file (Utf8.encode u) time).size, time, unit⟩) := by
  have hfit : s.fitting? f (.file (Utf8.encode u) time) = none := by
    rw [fitting?, hnone]
    rfl
  have hfresh : freshUnit f (.file (Utf8.encode u) time) = .ok unit := by
    rw [freshUnit, contentOf]
    dsimp only
    rw [textOf_encode, hunit]
  rw [unitOf_there hknown hf hstat, hfit, hfresh]
  rfl

/-- The text of an editor, of a file that no unit is kept for, has the unit that it is read as; the disk is
only asked how long and how old the file is, if it is there. -/
theorem commit_unkept (hknown : s.files = some keys) (hf : keys.contains f.path = true)
    (hnone : s.kept? f.path = none) (hstat : ∀ er, d.stat f.location = .error er → er = .notFound)
    (hunit : Outline.parseUnit f.path u.unifyBreaks = .ok unit) :
    ((commit d f u).runOn s).1 = .ok unit := by
  have hsame : s.sameText? f u.unifyBreaks = none := by
    rw [sameText?, hnone]
    rfl
  rcases hplace : d.stat f.location with er | ⟨x, e⟩
  · obtain rfl := hstat er hplace
    unfold commit
    rw [runOn_bind_ok (tracks_known hknown), hf]
    simp only [Bool.not_true, Bool.false_eq_true, if_false]
    rw [runOn_bind_ok (runOn_get s), hnone]
    dsimp only [Option.filter_none]
    rw [parseText, hunit, runOn_bind_ok (runOn_ofExcept_ok _ unit s), sizeAndTime, hplace]
    rfl
  · rw [commit_there hknown hf hplace hunit, hsame]

/-- The text of a unit that is kept is known by its digest, whatever the disk is. -/
theorem commit_kept {k : KeptUnit} (hknown : s.files = some keys) (hf : keys.contains f.path = true)
    (hkept : s.kept? f.path = some k) (hdigest : k.unit.digest = Digest.ofText u.unifyBreaks) :
    (commit d f u).runOn s = (.ok k.unit, s) := by
  have hsame : (s.kept? f.path).filter (fun k => k.unit.digest = Digest.ofText u.unifyBreaks) = some k := by
    rw [hkept, Option.filter_some, if_pos (decide_eq_true hdigest)]
  unfold commit
  rw [runOn_bind_ok (tracks_known hknown), hf]
  simp only [Bool.not_true, Bool.false_eq_true, if_false]
  rw [runOn_bind_ok (runOn_get s), hsame]
  rfl

/-! ## Agreement -/

open Outline Outline.Kotlin in
/-- A tracked file that no unit is kept for, and that holds an encoded text, has the unit of that text with its
breaks unified. An editor that commits the text has the same unit, whatever is on the disk; and so it has right
after the file was read, when the unit is the one that is kept. What the unit declares ends on lines of the
text, or where it begins; and it begins on a line of the text exactly if none but line feeds end lines in the
code before it. -/
theorem disk_and_editor_agree (htracked : ((tracks d f).runOn s).1 = .ok true)
    (hnone : s.kept? f.path = none)
    (hstat : d.stat f.location = .ok (x, .file (Utf8.encode u) time)) :
    Text.UnifiedFrom u.unifyBreaks u
      ∧ ∃ unit s', (unitOf d f).runOn s = (.ok (some unit), s')
        ∧ parseUnit f.path u.unifyBreaks = .ok unit
        ∧ (∀ d', ((tracks d' f).runOn s).1 = .ok true →
          (∀ er, d'.stat f.location = .error er → er = .notFound) →
            ((commit d' f u).runOn s).1 = .ok unit)
        ∧ (∀ d', (commit d' f u).runOn s' = (.ok unit, s'))
        ∧ ∀ e ∈ unit.declarations, ∃ k, keywordPlace? (mask .kotlin u.unifyBreaks) e = some k
          ∧ e.startLine = 1 + (u.unifyBreaks.take k).count '\n'
            + Text.otherBreaks ((mask .kotlin u.unifyBreaks).take k)
          ∧ (e.endLine = e.startLine
            ∨ ∃ j, u.unifyBreaks[j]? = some '}' ∧ e.endLine = 1 + (u.unifyBreaks.take j).count '\n')
          ∧ (Numbered u.unifyBreaks e ↔ Text.OnlyFeeds ((mask .kotlin u.unifyBreaks).take k)) := by
  have hknows : ∀ d, ((tracks d f).runOn s).1 = .ok true →
      ∃ keys, s.keysOn d = .ok keys ∧ keys.contains f.path = true := by
    intro d htracked
    rcases hkeys : s.keysOn d with c | keys
    · rw [tracks_of_error hkeys] at htracked
      exact nomatch htracked
    · rw [tracks_of_keys hkeys] at htracked
      exact ⟨keys, rfl, Except.ok.inj htracked⟩
  obtain ⟨unit, hunit, hdigest⟩ := parseUnit_ok f.path u.unifyBreaks
  obtain ⟨keys, hkeys, hf⟩ := hknows d htracked
  -- the files that are tracked are known when the file is read
  have hrun : (unitOf d f).runOn s = (unitOf d f).runOn (s.knowing keys) := runOn_tracks_bind hkeys
  have hknown : (s.knowing keys).files = some keys := rfl
  rw [unitOf_unkept hknown hf hnone hstat hunit] at hrun
  refine ⟨Text.unifiedFrom u, unit, _, hrun, hunit, fun d' htracked' hthere => ?_, fun d' => ?_,
    fun e he => ?_⟩
  · obtain ⟨keys', hkeys', hf'⟩ := hknows d' htracked'
    have hrun : (commit d' f u).runOn s = (commit d' f u).runOn (s.knowing keys') := runOn_tracks_bind hkeys'
    rw [hrun]
    exact commit_unkept rfl hf' hnone hthere hunit
  · -- what was kept when the file was read has the digest of the text
    have hkept := kept?_keep (s.knowing keys) f.path f.path
      ⟨Int.ofNat (Entry.file (Utf8.encode u) time).size, time, unit⟩
    rw [if_pos rfl] at hkept
    have hstays : (keep (s.knowing keys) f.path
      ⟨Int.ofNat (Entry.file (Utf8.encode u) time).size, time, unit⟩).files = some keys := rfl
    exact commit_kept hstays hf hkept hdigest
  · exact numbered_iff (Text.return_not_mem_unifyBreaks u) (mem_declarationsOf_of_parseUnit hunit he)

/-- A text with all three breaks, of which two stand next to each other. -/
def mixedText : Text := "class A \x7b\r\r\n\x7d\rclass B\n".toList

theorem disk_and_editor_agree_small :
    let d := onlyDisk mixedText 1
    let s := fresh onlyRoot onlyRules
    ∃ unit s', (unitOf d onlyFile).runOn s = (.ok (some unit), s')
      ∧ ((commit d onlyFile mixedText).runOn s).1 = .ok unit
      ∧ (commit d onlyFile mixedText).runOn s' = (.ok unit, s')
      ∧ ∀ e ∈ unit.declarations, Outline.Kotlin.Numbered mixedText.unifyBreaks e := by
  intro d s
  have htracked : ((tracks d onlyFile).runOn s).1 = .ok true := by decide +kernel
  have hstat : d.stat onlyFile.location
      = .ok (["p".toList, "src".toList, "A.kt".toList], .file (Utf8.encode mixedText) 1) := by decide +kernel
  obtain ⟨-, unit, s', hrun, -, hcommit, hagain, hlines⟩ := disk_and_editor_agree htracked rfl hstat
  refine ⟨unit, s', hrun, hcommit d htracked (fun er her => nomatch hstat.symm.trans her), hagain d,
    fun e he => ?_⟩
  obtain ⟨k, -, -, -, hiff⟩ := hlines e he
  have hfeeds : Text.OnlyFeeds (Outline.mask .kotlin mixedText.unifyBreaks) := by decide +kernel
  exact hiff.mpr fun c hc => hfeeds c (List.mem_of_mem_take hc)

/-- A form feed is no break of a file, and the class behind it is said to begin on the second line. -/
theorem not_numbered_after_form_feed :
    let u : Text := "\x0cclass A\n".toList
    let e : Outline.Declaration := ⟨"class".toList, "A".toList, some "A".toList, .topLevel, 2, 2, none⟩
    (((unitOf (onlyDisk u 1) onlyFile).runOn (fresh onlyRoot onlyRules)).1.map fun unit =>
        unit.map Outline.SourceUnit.declarations) = .ok (some [e])
      ∧ Outline.Kotlin.keywordPlace? (Outline.mask .kotlin u.unifyBreaks) e = some 1
      ∧ u.unifyBreaks.take 1 = ['\x0c']
      ∧ ¬Outline.Kotlin.Numbered u.unifyBreaks e := by
  intro u e
  have hplace : Outline.Kotlin.keywordPlace? (Outline.mask .kotlin u.unifyBreaks) e = some 1 := by
    decide +kernel
  refine ⟨by decide +kernel, hplace, by decide, ?_⟩
  rintro ⟨k, hk, hline, -⟩
  obtain rfl : k = 1 := Option.some.inj (hk.symm.trans hplace)
  exact absurd hline (by decide)

end SourceSet

end Provenance
