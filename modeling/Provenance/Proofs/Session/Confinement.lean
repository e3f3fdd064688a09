/-
Calls stay inside the output directory.

Whatever a call is told to make, touch or delete, and however it ends, it changes entries
below the output directory, the directories on the way there, and the journal, which goes
wherever its path leads. `stays_inside` goes through what may become of any other entry:
nothing. It asks that no link leads into the output directory or out of it. Lookups and outlines
change nothing on the host.
-/
import Provenance.Proofs.CommandLine.Outline
import Provenance.Proofs.Session.Sources
import Provenance.Proofs.Update.Confinement

set_option autoImplicit false

namespace Provenance

open Action Host

namespace Session

variable {c : Call} {s s' : Session} {d d' : Disk} {x : Location}

/-! ## The disk before the line in the journal -/

/-- The steps of a call go on with whatever each step goes on with, below the output directory. -/
theorem Call.steps_respect_below (c : Call) (p : Project) (keys : List Text)
    {S : Update.Cycle → Update.Cycle → Prop} (hS : Update.KeptSteps S (·.Below p.layout.outputRoot)) :
    Respects S (c.steps p keys) := by
  cases c with
  | rebuild build affected => exact hS.rebuildSteps (fun _ hp => hp) p.ledger keys build
  | edit resolve affected => exact hS.editSteps (fun _ hp => hp) resolve keys

/-- The steps of a call stay within the output directory, and so does taking them back. -/
theorem Sound.reversible (hs : s.Sound)
    (hclear : s.host.disk.tree.ClearAlong s.project.layout.outputRoot.names) (c : Call)
    (keys : List Text) :
    Update.Reversible s.project.layout s.host.disk.tree
      ((c.steps s.project keys).runOn s.atStart).2 :=
  c.steps_respect_below s.project keys (Update.keptSteps_staysReversible hs.layout) s.atStart
    ⟨⟨hs.disk, hclear, .refl _ _⟩, by simp [atStart, Update.Pending.none],
      by simp [atStart, Update.Pending.none]⟩

/-- Before its line in the journal a call is within the output directory. -/
theorem Call.Leaves.within (hs : s.Sound)
    (hclear : s.host.disk.tree.ClearAlong s.project.layout.outputRoot.names) (h : c.Leaves s d) :
    Update.Within s.project.layout s.host.disk.tree d := by
  cases h with
  | declined => exact ⟨hs.disk, hclear, .refl _ _⟩
  | aborted h =>
    obtain ⟨keys, s₁, hk, hu⟩ := h
    obtain ⟨g, cycle, h', hsteps, rfl, hroll⟩ := underway_error hu
    have hs₁ := hs.keys hk
    rw [← host_affectedKeys hk, ← (sameLedger_keys hk).layout] at hclear ⊢
    have hcycle := hs₁.reversible hclear c keys
    rw [hsteps] at hcycle
    have hback := hcycle.rollback hs₁.layout
    rcases hroll with ⟨lines, hroll, -⟩ | hroll
    · rwa [hroll] at hback
    · rwa [hroll] at hback
  | swept h =>
    have hlayout := h.sameLedger.layout
    obtain ⟨keys, s₁, started, hk, hu⟩ := h
    obtain ⟨cycle, hsteps, rfl, rfl⟩ := underway_ok hu
    have hs₁ := hs.keys hk
    rw [← host_affectedKeys hk, ← (sameLedger_keys hk).layout] at hclear ⊢
    have hcycle := hs₁.reversible hclear c keys
    rw [hsteps] at hcycle
    exact Update.staysWithin_sweep hs₁.layout cycle.pending.entries cycle.host hcycle.within

/-! ## The line in the journal -/

/-- What may become in a call of an entry that is not below the output directory. -/
inductive Outside (s : Session) (d : Disk) (x : Location) : Prop
  /-- nothing, or what making the output directory does -/
  | spared (h : s.host.disk.tree.Spared s.project.layout.outputRoot.names d.tree x)
  /-- it is the journal, and has a line more -/
  | grown {path : Path} {line old : Bytes} {time time' : Int}
      (hjournal : s.project.journal = some path) (hline : Journal.IsLine line)
      (hold : s.host.disk.tree.find? x = some (.file old time))
      (hplace : d.place true path = .ok (.present x (.file (old ++ line) time')))
  /-- it is the journal, which was missing -/
  | begun {path : Path} {line : Bytes} {time : Int}
      (hjournal : s.project.journal = some path) (hline : Journal.IsLine line)
      (hold : s.host.disk.tree.find? x = none)
      (hplace : d.place true path = .ok (.present x (.file line time)))
  /-- it is the directory in which the journal is made -/
  | holds {path : Path} {n : Text} {line : Bytes} {time : Int}
      (hjournal : s.project.journal = some path) (hline : Journal.IsLine line)
      (hold : s.host.disk.tree.isDirectory x = true) (hdir : d.tree.isDirectory x = true)
      (hnext : x = s.project.layout.outputRoot.names ∨ s.host.disk.tree.find? (x ++ [n]) = none)
      (hplace : d.place true path = .ok (.present (x ++ [n]) (.file line time)))

section Line

variable (hw : Update.Within s.project.layout s.host.disk.tree d) {path : Path} {line : Bytes}
  {now : Int} (hstraight : path.Straight) (hjournal : s.project.journal = some path)
  (hline : Journal.IsLine line)
  (hx : s.project.layout.outputRoot.names <+: x → x = s.project.layout.outputRoot.names)
include hw hstraight hjournal hline hx

/-- A line is added to the journal where it was missing. -/
theorem outside_of_add {dir : Location} {n : Text} (hpl : d.place true path = .ok (.absent dir n)) :
    s.Outside (d.withTree (d.tree.add (dir ++ [n]) (.file line now) now)) x := by
  obtain ⟨hdir, hnone, -⟩ := Disk.place_absent hw.legal.tree hstraight hpl
  have hsome := Tree.isSome_find?_of_isDirectory hdir
  have hfind := Tree.find?_add hsome n (.file line now) now
  have hplace : (d.withTree (d.tree.add (dir ++ [n]) (.file line now) now)).place true path
      = .ok (.present (dir ++ [n]) (.file line now)) := Disk.place_filled hstraight.isAbsolute hpl
    (Tree.keeps_add hsome hnone _ now).passable (by rw [Disk.tree_withTree, hfind, if_pos rfl]) rfl
  have hspared := hw.confined x hx
  by_cases hnew : x = dir ++ [n]
  · subst hnew
    exact .begun hjournal hline (hspared.find?_eq_none hnone) hplace
  by_cases hparent : x = dir
  · subst hparent
    have hdir' : (d.tree.add (x ++ [n]) (.file line now) now).isDirectory x = true := by
      obtain ⟨time, hthere⟩ := Tree.isDirectory_iff.mp hdir
      rw [Tree.isDirectory, hfind, if_neg hnew, if_pos rfl, hthere]
      rfl
    cases hspared with
    | made hway hmissing _ => exact .spared (.made hway hmissing hdir')
    | stamped hway hold _ hnext => exact .spared (.stamped hway hold hdir' hnext)
    | same hsame =>
      -- the directory was as it had been, and its time moves now
      refine .holds hjournal hline (by rwa [Tree.isDirectory, ← hsame]) hdir' ?_ hplace
      by_cases hbelow : s.project.layout.outputRoot.names <+: x
      · exact .inl (hx hbelow)
      · refine .inr ((hw.confined _ fun hto => ?_).find?_eq_none hnone)
        exact ((List.prefix_concat_iff.mp hto).resolve_right hbelow).symm
  · refine .spared (hspared.congr ?_)
    rw [Disk.tree_withTree, hfind, if_neg hnew, if_neg hparent]

/-- A line is added to the journal at its end. -/
theorem outside_of_put {y : Location} {content : Bytes} {time : Int}
    (hpl : d.place true path = .ok (.present y (.file content time))) :
    s.Outside (d.withTree (d.tree.put y (.file (content ++ line) now))) x := by
  have hthere := Disk.place_present hstraight.isAbsolute hpl
  have hparent := hw.legal.tree.isSome_find?_dropLast (l := y) (by simp [hthere])
  have hfind := Tree.find?_put hparent (.file (content ++ line) now)
  have hplace : (d.withTree (d.tree.put y (.file (content ++ line) now))).place true path
      = .ok (.present y (.file (content ++ line) now)) := Disk.place_keeps hstraight.isAbsolute hpl
    (Tree.passable_put_file hparent hthere _ now) (by rw [Disk.tree_withTree, hfind, if_pos rfl]) rfl
  have hspared := hw.confined x hx
  by_cases hother : x = y
  · -- the journal is a file, and so no directory on the way
    subst hother
    have hnot : d.tree.isDirectory x ≠ true := by simp [Tree.isDirectory, hthere, Entry.isDirectory]
    cases hspared with
    | made _ _ hdir => exact absurd hdir hnot
    | stamped _ _ hdir _ => exact absurd hdir hnot
    | same hsame => exact .grown hjournal hline (hsame.symm.trans hthere) hplace
  · exact .spared (hspared.congr (by rw [Disk.tree_withTree, hfind, if_neg hother]))

end Line

theorem LineAdded.outside (h : LineAdded s.project.journal d d') (hs : s.Sound)
    (hw : Update.Within s.project.layout s.host.disk.tree d)
    (hx : s.project.layout.outputRoot.names <+: x → x = s.project.layout.outputRoot.names) :
    s.Outside d' x := by
  rcases h with rfl | ⟨path, line, now, hjournal, hline, hc⟩
  · exact .spared (hw.confined x hx)
  have hstraight := hs.journal path hjournal
  rcases Disk.append_ok hc with ⟨dir, n, hpl, rfl⟩ | ⟨y, content, time, hpl, rfl⟩ | ⟨y, e, -, -, -, rfl⟩
  · exact outside_of_add hw hstraight hjournal hline hx hpl
  · exact outside_of_put hw hstraight hjournal hline hx hpl
  · exact .spared (hw.confined x hx)

/-! ## Calls -/

/-- Where no link is on the way to the output directory or below it, a call, whether it returns or
raises, does to an entry that is not below that directory only this: it makes a directory that was
missing on the way there, moves the time of one in which it makes the next, or adds one line to the
journal, which it makes if it was missing. Lookups and outlines change nothing on the host. -/
theorem stays_inside (hs : Reachable s)
    (hclear : s.host.disk.tree.ClearAlong s.project.layout.outputRoot.names) :
    (∀ (c : Call) (x : Location),
        (s.project.layout.outputRoot.names <+: x → x = s.project.layout.outputRoot.names) →
        s.Outside (c.run.runOn s).2.host.disk x)
      ∧ (∀ raw, ((lookup raw).runOn s).2.host = s.host)
      ∧ ∀ paths, ((CommandLine.outline paths).runOn s).2.host = s.host := by
  have hhost := stepwise_same Session.host
  refine ⟨fun c x hx => ?_, fun raw => ?_, fun paths => ?_⟩
  · obtain ⟨d, hleaves, hline⟩ := c.leaves_run s
    exact hline.outside hs.sound (hleaves.within hs.sound hclear) hx
  · exact respects_lookup hhost (fun _ _ => rfl) (fun _ _ => rfl) raw s
  · exact CommandLine.respects_outline hhost (fun _ _ => rfl) paths s

/-- The small project has no links, so that a rebuild of its artifact leaves its source alone. -/
theorem stays_inside_small : ∃ s, small? [] = some s
    ∧ s.host.disk.tree.ClearAlong s.project.layout.outputRoot.names
    ∧ ¬ s.project.layout.outputRoot.names <+: smallSource.names
    ∧ s.Outside ((Call.rebuild smallBuild []).run.runOn s).2.host.disk smallSource.names := by
  have hopen : ((small? []).map fun s => decide (
      s.host.disk.tree.entries.all (fun le => !le.2.isLink) = true
        ∧ ¬ s.project.layout.outputRoot.names <+: smallSource.names)) = some true := by
    decide +kernel
  obtain ⟨s, hs, h⟩ := Option.map_eq_some_iff.mp hopen
  obtain ⟨hentries, hnot⟩ := of_decide_eq_true h
  have hreach : Reachable s := reachable_small (by decide +kernel) (by decide +kernel) hs
  have hclear := (Tree.linkFree_of_entries hreach.sound.disk.tree.nodes hentries).clearAlong
    s.project.layout.outputRoot.names
  exact ⟨s, hs, hclear, hnot, (stays_inside hreach hclear).1 _ _ fun h => absurd h hnot⟩

end Session

end Provenance
