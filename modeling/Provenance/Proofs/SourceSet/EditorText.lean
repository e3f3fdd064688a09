/-
The text of an editor.

A text that an editor has not saved counts as that of its file until the file changes. The
set keeps the unit of the text with the size and the time that the file has on the disk, and
as long as both stay the same the unit is not read anew.

There is one way out of step. A unit that is kept already, and that was read from the same
text, is handed back and not kept anew: it stays with the size and the time of the file it
was read from. If the file has changed since, the next request reads the disk, and the text
of the editor is lost. `commit_wins_iff` proves that this is the only one.
-/
import Provenance.Proofs.SourceSet.Requests

set_option autoImplicit false

namespace Provenance.SourceSet

open Action

/-! ## Texts that have been read -/

/-- The texts that a request may have units read from. -/
def Request.texts (r : Request) (d : Disk) : List Text :=
  match r with
  | .unit f => ((d.read f.location).toOption.map textOf).toList
  | .commit _ text => [text.unifyBreaks]
  | _ => []

/-- The texts that a run of requests may have units read from. -/
def textsRead (ms : List Moment) : List Text := ms.flatMap fun m => m.request.texts m.disk

variable {root : Path} {rules : SourceSettings} {ms later : List Moment} {d d' : Disk}
  {s s' : SourceSet} {f : TrackedFile} {text : Text} {key : Text} {k : KeptUnit} {x : Location}
  {e : Entry} {unit : Outline.SourceUnit}

/-- A unit is read from one of the texts of the request. -/
theorem Request.Yields.exists_text {r : Request} (h : r.Yields d key k) :
    ∃ t ∈ r.texts d, Outline.parseUnit key t = .ok k.unit := by
  cases r with
  | unit f =>
    obtain ⟨-, -, -, content, -, hread, -, -, hunit⟩ := h
    exact ⟨textOf content, by simp [texts, hread, Except.toOption], hunit⟩
  | commit f text => exact ⟨text.unifyBreaks, by simp [texts], h.2⟩
  | _ => exact h.elim

/-- Each unit that is kept after a run was read from a text of the run. -/
theorem text_of_kept (h : ((fresh root rules).after ms).kept? key = some k) :
    ∃ t ∈ textsRead ms, Outline.parseUnit key t = .ok k.unit := by
  obtain ⟨m, hm, hyields⟩ := kept_after h
  obtain ⟨t, ht, hunit⟩ := Request.Yields.exists_text hyields
  exact ⟨t, List.mem_flatMap.mpr ⟨m, hm, ht⟩, hunit⟩

/-- A unit that is kept for a text was read from it, unless two of the texts that have been read have
one digest. -/
theorem unit_of_sameText
    (hdigest : ∀ t ∈ textsRead ms, Digest.ofText t = Digest.ofText text → t = text)
    (hsame : ((fresh root rules).after ms).sameText? f text = some k) :
    Outline.parseUnit f.path text = .ok k.unit := by
  obtain ⟨hkept, hk⟩ := Option.filter_eq_some_iff.mp hsame
  obtain ⟨t, ht, hunit⟩ := text_of_kept hkept
  obtain ⟨unit, hparse, hofText⟩ := Outline.parseUnit_ok f.path t
  obtain rfl : unit = k.unit := Except.ok.inj (hparse.symm.trans hunit)
  obtain rfl := hdigest t ht (hofText.symm.trans (of_decide_eq_true hk))
  exact hunit

/-! ## Commits -/

/-- The unit that is kept for a file was read from a text, but belongs to an earlier state of the file,
and what is there now is read as something else. -/
def Outdated (s : SourceSet) (f : TrackedFile) (text : Text) (e : Entry) : Prop :=
  ∃ k, s.sameText? f text = some k ∧ s.fitting? f e = none ∧ freshUnit f e ≠ .ok k.unit

/-- A file of which the kept unit fits has that unit. -/
theorem unitOf_fitting (htracked : s.Tracked f.path) (hstat : d.stat f.location = .ok (x, e))
    (hfit : s.fitting? f e = some k) : ((unitOf d f).runOn s).1 = .ok (some k.unit) := by
  obtain ⟨keys, hkeys, hf⟩ := htracked
  rw [unitOf_there hkeys (List.contains_iff_mem.mpr hf) hstat, hfit]

/-- A file of which no kept unit fits has the unit that it is read as. -/
theorem unitOf_fresh_iff (htracked : s.Tracked f.path) (hstat : d.stat f.location = .ok (x, e))
    (hfit : s.fitting? f e = none) :
    ((unitOf d f).runOn s).1 = .ok (some unit) ↔ freshUnit f e = .ok unit := by
  obtain ⟨keys, hkeys, hf⟩ := htracked
  rw [unitOf_there hkeys (List.contains_iff_mem.mpr hf) hstat, hfit]
  cases freshUnit f e <;> simp

/-- What is kept for a file fits as before if its key has not been touched. -/
theorem Untouched.fitting? (h : Untouched f.path s s') (e : Entry) :
    s'.fitting? f e = s.fitting? f e := by
  rw [SourceSet.fitting?, h.kept, SourceSet.fitting?]

/-- A commit on a set that knows its files: what it hands back is handed back again, unless the unit that
was kept for the text is outdated. -/
theorem commit_wins_known (htracked : s.Tracked f.path) (hstat : d.stat f.location = .ok (x, e))
    (hkept : ∀ k, s.sameText? f text.unifyBreaks = some k →
      Outline.parseUnit f.path text.unifyBreaks = .ok k.unit)
    (hlater : ∀ m ∈ later, m.request.Leaves f.path)
    (hunchanged : d'.stat f.location = d.stat f.location) :
    ∃ unit s', (commit d f text).runOn s = (.ok unit, s')
      ∧ Outline.parseUnit f.path text.unifyBreaks = .ok unit
      ∧ (((unitOf d' f).runOn (s'.after later)).1 = .ok (some unit)
        ↔ ¬ s.Outdated f text.unifyBreaks e) := by
  have hstat' : d'.stat f.location = .ok (x, e) := hunchanged.trans hstat
  obtain ⟨unit, hunit, -⟩ := Outline.parseUnit_ok f.path text.unifyBreaks
  obtain ⟨keys, hkeys, hf⟩ := htracked
  rw [commit_there hkeys (List.contains_iff_mem.mpr hf) hstat hunit]
  rcases hsame : s.sameText? f text.unifyBreaks with _ | k
  · -- the unit is kept anew, and fits what is there
    have htouched := untouched_after hlater (s.keep f.path ⟨Int.ofNat e.size, e.time, unit⟩)
    have hfit := (htouched.fitting? e).trans (fitting?_keep s f e unit)
    have hread := unitOf_fitting (htouched.tracked ⟨keys, hkeys, hf⟩) hstat' hfit
    refine ⟨unit, _, rfl, hunit, iff_of_true hread ?_⟩
    rintro ⟨k, hk, -⟩
    exact nomatch hsame.symm.trans hk
  · -- the unit that is kept stays with the size and the time that it has
    have htouched := untouched_after hlater s
    have htracked := htouched.tracked ⟨keys, hkeys, hf⟩
    refine ⟨k.unit, _, rfl, hkept k hsame, ?_⟩
    rcases hfit : s.fitting? f e with _ | k'
    · rw [unitOf_fresh_iff htracked hstat' ((htouched.fitting? e).trans hfit)]
      simp [Outdated, hsame, hfit]
    · have hread := unitOf_fitting htracked hstat' ((htouched.fitting? e).trans hfit)
      obtain rfl : k' = k := Option.some.inj
        ((Option.filter_eq_some_iff.mp hfit).1.symm.trans (Option.filter_eq_some_iff.mp hsame).1)
      simp [Outdated, hread, hfit]

/-- A tracked file that is there has the unit of the text that an editor committed, up to a change of the
file: however sources were asked for before, and whatever is asked of other files in between, the next
request for its unit hands back the committed one, unless that was kept for an earlier state of the
file. -/
theorem commit_wins_iff
    (hdigest : ∀ t ∈ textsRead ms,
      Digest.ofText t = Digest.ofText text.unifyBreaks → t = text.unifyBreaks)
    (htracked : ((tracks d f).runOn ((fresh root rules).after ms)).1 = .ok true)
    (hstat : d.stat f.location = .ok (x, e))
    (hlater : ∀ m ∈ later, m.request.Leaves f.path)
    (hunchanged : d'.stat f.location = d.stat f.location) :
    ∃ unit s', (commit d f text).runOn ((fresh root rules).after ms) = (.ok unit, s')
      ∧ Outline.parseUnit f.path text.unifyBreaks = .ok unit
      ∧ (((unitOf d' f).runOn (s'.after later)).1 = .ok (some unit)
        ↔ ¬ ((fresh root rules).after ms).Outdated f text.unifyBreaks e) := by
  rcases hkeys : ((fresh root rules).after ms).keysOn d with c | keys
  · rw [tracks_of_error hkeys] at htracked
    exact nomatch htracked
  rw [tracks_of_keys hkeys] at htracked
  have hf : f.path ∈ keys := List.contains_iff_mem.mp (Except.ok.inj htracked)
  have hrun : (commit d f text).runOn ((fresh root rules).after ms)
      = (commit d f text).runOn (((fresh root rules).after ms).knowing keys) := runOn_tracks_bind hkeys
  rw [hrun]
  exact commit_wins_known ⟨keys, rfl, hf⟩ hstat (fun k hk => unit_of_sameText hdigest hk) hlater
    hunchanged

/-- A source is read, changes, and is edited: the text of its editor counts. -/
theorem commit_wins_small :
    let d := onlyDisk "class A\n".toList 1
    let d' := onlyDisk "class Other\n".toList 2
    let s := (fresh onlyRoot onlyRules).after [⟨d, .unit onlyFile⟩]
    ∃ unit s', (commit d' onlyFile "class B\r\n".toList).runOn s = (.ok unit, s')
      ∧ Outline.parseUnit "src/A.kt".toList "class B\n".toList = .ok unit
      ∧ ((unitOf d' onlyFile).runOn (s'.after [⟨d', .list⟩])).1 = .ok (some unit) := by
  intro d d' s
  have hstat : d'.stat onlyFile.location = .ok (["p".toList, "src".toList, "A.kt".toList],
    .file (Utf8.encode "class Other\n".toList) 2) := by decide +kernel
  have htracked : ((tracks d' onlyFile).runOn s).1 = .ok true := by decide +kernel
  have hdigest : ∀ t ∈ textsRead [⟨d, .unit onlyFile⟩],
      Digest.ofText t = Digest.ofText (Text.unifyBreaks "class B\r\n".toList) →
        t = Text.unifyBreaks "class B\r\n".toList := by
    decide +kernel
  have hlater : ∀ m ∈ [⟨d', .list⟩], (Moment.request m).Leaves onlyFile.path := by
    simp [Request.Leaves]
  obtain ⟨unit, s', hrun, hunit, hiff⟩ := commit_wins_iff hdigest htracked hstat hlater rfl
  refine ⟨unit, s', hrun, hunit, hiff.mpr ?_⟩
  -- no unit has been kept for the text of the editor
  have hnone : s.sameText? onlyFile "class B\n".toList = none := by decide +kernel
  rintro ⟨k, hk, -⟩
  exact nomatch hnone.symm.trans hk

/-- A source is read and changes, and an editor goes back to the text that was read. The unit of that
text is handed back once; the next request reads the disk. -/
theorem commit_lost :
    let d := onlyDisk "class A\n".toList 1
    let d' := onlyDisk "class Other\n".toList 2
    let s := (fresh onlyRoot onlyRules).after [⟨d, .unit onlyFile⟩]
    ((tracks d' onlyFile).runOn s).1 = .ok true
      ∧ d'.hasFile onlyFile.location = .ok true
      ∧ ∃ unit s', (commit d' onlyFile "class A\n".toList).runOn s = (.ok unit, s')
        ∧ ((unitOf d' onlyFile).runOn s').1 ≠ .ok (some unit) :=
  ⟨by decide +kernel, by decide +kernel, Ends.exists_ok (by decide +kernel)⟩

end Provenance.SourceSet
