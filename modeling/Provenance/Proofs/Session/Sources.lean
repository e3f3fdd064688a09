/-
What becomes of the sources of a project.

An update writes stubs and reads sources, and one would take the sources to be safe
from it. They are, however the call ends, with two exceptions that follow from the
settings. The sweep deletes whatever lies below the output directory and has no source
in what was published, and nothing keeps that directory from being one with sources in
it. And the journal gets a line wherever its path leads.

`spares` says that there are no other exceptions.
-/
import Provenance.Proofs.Session.Accounting
import Provenance.Proofs.Session.Agreement
import Provenance.Proofs.Update.Sparing

set_option autoImplicit false

namespace Provenance.Session

open Action Host

variable {c : Call} {s s' : Session} {pending : Update.Pending} {d d' : Disk} {x : Location}

/-! ## The journal -/

/-- A line in the journal leaves a file as it was, or the file is the journal and has the line at its
end. -/
theorem LineOnly.shape {journal : Option Path} (hl : LineOnly journal d d') (hd : d.Legal)
    (hjournal : ∀ p, journal = some p → p.Straight) {content : Bytes}
    (hx : d.tree.shape x = some (.file content 0)) :
    d'.tree.shape x = some (.file content 0)
      ∨ ∃ path line time, journal = some path
        ∧ d'.place true path = .ok (.present x (.file (content ++ line) time)) := by
  rcases hl with rfl | ⟨path, line, now, hj, hc⟩
  · exact .inl hx
  obtain ⟨y, e, happended, -⟩ := Disk.appended_of_append hd (hjournal path hj) hc
  by_cases hy : x = y
  · subst hy
    have htimeless := happended.content content hx
    cases e with
    | file written time =>
      obtain rfl : written = content ++ line := by simpa using htimeless
      exact .inr ⟨path, line, time, hj, happended.place⟩
    | _ => simp [Entry.timeless, Entry.setTime] at htimeless
  · exact .inl ((happended.shape x hy).trans hx)

/-! ## The disk in the course of a call -/

namespace Call

/-- Until it publishes, a call takes nothing away. -/
theorem Pends.keeps (hs : s.Sound) (hp : c.Pends s pending s') :
    s.host.disk.tree.Keeps s'.host.disk.tree := by
  obtain ⟨keys, s₁, started, hk, hu⟩ := hp
  obtain ⟨cycle, hsteps, rfl, rfl⟩ := underway_ok hu
  have hs₁ := hs.keys hk
  have hgrows := (c.steps_respect s₁.project keys hs₁.layout.keptGrows).of_run hsteps
  rw [← host_affectedKeys hk]
  exact (hgrows hs₁.disk).2

/-- A call that aborts takes nothing away but what it has made. -/
theorem Aborts.keeps (hs : s.Sound) {f : Failure} (ha : c.Aborts s f s') :
    s.host.disk.tree.Keeps s'.host.disk.tree := by
  obtain ⟨keys, s₁, hk, hu⟩ := ha
  obtain ⟨g, cycle, h', hsteps, rfl, hroll⟩ := underway_error hu
  obtain ⟨extras, dirs, files, hbooks, -⟩ := Breaks.books hs ⟨keys, s₁, hk, hsteps⟩
  have hkeeps := Update.keeps_rollback hbooks
  rcases hroll with ⟨lines, hroll, -⟩ | hroll
  · rwa [hroll] at hkeeps
  · rwa [hroll] at hkeeps

/-- The disk that a call has come to when nothing is left to do but to write it down. -/
inductive Leaves (c : Call) (s : Session) : Disk → Prop
  | declined : Leaves c s s.host.disk
  | aborted {f : Failure} {s₁ : Session} (h : c.Aborts s f s₁) : Leaves c s s₁.host.disk
  | swept {pending : Update.Pending} {s₁ : Session} (h : c.Pends s pending s₁) :
    Leaves c s (s₁.sweepAfter pending).2.disk

theorem Leaves.legal (hs : s.Sound) (h : c.Leaves s d) : d.Legal := by
  cases h with
  | declined => exact hs.disk
  | aborted h => exact (hs.aborts h).disk
  | swept h => exact Update.staysLegal_sweep _ _ _ (hs.pends h).disk

/-- What is left to do adds a line to the journal at most. -/
theorem leaves_run (c : Call) (s : Session) :
    ∃ d, c.Leaves s d ∧ LineAdded s.project.journal d (c.run.runOn s).2.host.disk := by
  rcases c.outcomes s with ⟨f, s₁, hd⟩ | ⟨f, s₁, ha⟩ | ⟨pending, s₁, hp⟩
  · rw [hd.run_eq, host_affectedKeys hd]
    exact ⟨s.host.disk, .declined, .inl rfl⟩
  · obtain ⟨cycleId, n, hrun⟩ := ha.run_eq
    obtain ⟨f', s₂, hgive, hline, -⟩ := giveUp_line c.operation cycleId n f s₁
    rw [hrun, hgive, ← ha.sameLedger.2.2.2]
    exact ⟨s₁.host.disk, .aborted ha, hline⟩
  · obtain ⟨cycleId, started, n, hrun⟩ := hp.run_eq
    refine ⟨_, .swept hp, ?_⟩
    rw [hrun, settle_eq, ← hp.sameLedger.2.2.2]
    rcases hsweep : s₁.sweepAfter pending with ⟨f | swept, h⟩
    · obtain ⟨f', s₂, hgive, hline, -⟩ :=
        giveUp_line c.operation cycleId n f { s₁.published pending with host := h }
      dsimp only
      rw [hgive]
      exact hline
    · dsimp only
      rw [conclude_eq]
      generalize reportOf c.operation cycleId pending swept started h.clock.now
        h.clock.next.now = report
      generalize hlast : reported c.operation report _ = last
      have hline := (writeDown_line (newline_not_mem_eventOfReport n report) last).1
      have hsame : last.project.journal = s₁.project.journal ∧ last.host.disk = h.disk := by
        rw [← hlast]; exact ⟨rfl, rfl⟩
      rw [hsame.1, hsame.2] at hline
      rcases hw : (writeDown (eventOfReport n report)).runOn last with ⟨f | u, s₂⟩ <;>
        rwa [hw] at hline

/-- Before its line in the journal a call has taken away nothing that was there, or it has swept. -/
theorem disk_run (hs : s.Sound) (c : Call) :
    ∃ d : Disk, d.Legal ∧ LineOnly s.project.journal d (c.run.runOn s).2.host.disk
      ∧ (s.host.disk.tree.Keeps d.tree
        ∨ ∃ pending s₁, c.Pends s pending s₁ ∧ d = (s₁.sweepAfter pending).2.disk) := by
  obtain ⟨d, hleaves, hline⟩ := c.leaves_run s
  refine ⟨d, hleaves.legal hs, hline.lineOnly, ?_⟩
  cases hleaves with
  | declined => exact .inl (.refl _)
  | aborted h => exact .inl (h.keeps hs)
  | swept h => exact .inr ⟨_, _, h, rfl⟩

end Call

/-! ## Sources -/

/-- A regular file below the project root whose key is that of a source, with its content. -/
def SourceFile (s : Session) (x : Location) (content : Bytes) : Prop :=
  ∃ loc e names time,
    s.host.disk.place true s.project.settings.projectRoot = .ok (.present loc e)
      ∧ x = loc ++ names ∧ s.project.settings.sources.isSource (Path.text ⟨.here, names⟩) = true
      ∧ s.host.disk.tree.find? x = some (.file content time)

namespace Call

/-- The sweep of a call finds a location below the output directory that has no source in what the
call has published. -/
def Exposes (c : Call) (s : Session) (x : Location) : Prop :=
  ∃ pending s₁, c.Pends s pending s₁
    ∧ s.project.layout.Exposes pending.entries s₁.host.disk x

/-- After a call, whether it returns or raises, every source that there was before it is a file at
the same place and with the same content, unless it was below the output directory and had no source
in what the call published, or it is the journal and has a line more. -/
theorem spares (hs : Reachable s) (c : Call) {content : Bytes} (hx : s.SourceFile x content) :
    (∃ time, (c.run.runOn s).2.host.disk.tree.find? x = some (.file content time))
      ∨ c.Exposes s x
      ∨ ∃ path line time, s.project.journal = some path
        ∧ (c.run.runOn s).2.host.disk.place true path
          = .ok (.present x (.file (content ++ line) time)) := by
  obtain ⟨-, -, -, time, -, -, -, hfind⟩ := hx
  have hshape := Tree.shape_of_find? hfind
  have hsound := hs.sound
  obtain ⟨d, hd, hline, hcases⟩ := c.disk_run hsound
  have hswept : d.tree.shape x = some (.file content 0) ∨ c.Exposes s x := by
    rcases hcases with hkeeps | ⟨pending, s₁, hp, rfl⟩
    · exact .inl (hkeeps x _ hshape)
    · have hsweep : (s₁.sweepAfter pending).2.disk.tree.shape x = some (.file content 0)
          ∨ s₁.project.layout.Exposes pending.entries s₁.host.disk x :=
        (Update.shape_sweep (hsound.pends hp).layout (hsound.pends hp).disk
          (hp.keeps hsound x _ hshape) rfl).imp_right And.right
      refine hsweep.imp_right fun hexposes => ⟨pending, s₁, hp, ?_⟩
      rwa [hp.sameLedger.layout] at hexposes
  refine hswept.elim (fun hkept => ?_) fun hexposed => .inr (.inl hexposed)
  refine (hline.shape hd hsound.journal hkept).imp (fun hshape' => ?_) .inr
  obtain ⟨e, hfind', htimeless⟩ := Option.map_eq_some_iff.mp hshape'
  cases e with
  | file content' time' =>
    obtain rfl : content' = content := by simpa using htimeless
    exact ⟨time', hfind'⟩
  | _ => simp [Entry.timeless, Entry.setTime] at htimeless

/-- The source of the small project is one when the project has been opened, and in a rebuild of its
artifact it goes as it has to. -/
theorem spares_small : ∃ s, small? [] = some s ∧ s.SourceFile smallSource.names []
    ∧ ((∃ time, ((Call.rebuild smallBuild []).run.runOn s).2.host.disk.tree.find? smallSource.names
          = some (.file [] time))
      ∨ (Call.rebuild smallBuild []).Exposes s smallSource.names
      ∨ ∃ path line time, s.project.journal = some path
        ∧ ((Call.rebuild smallBuild []).run.runOn s).2.host.disk.place true path
          = .ok (.present smallSource.names (.file ([] ++ line) time))) := by
  have hopen : ((small? []).map fun s => decide (
      s.host.disk.place true s.project.settings.projectRoot
          = .ok (.present smallRoot.names (.directory 0))
        ∧ s.project.settings.sources.isSource "src/A.kt".toList = true
        ∧ s.host.disk.tree.find? smallSource.names = some (.file [] 0))) = some true := by
    decide +kernel
  obtain ⟨s, hs, h⟩ := Option.map_eq_some_iff.mp hopen
  obtain ⟨hroot, hsource, hfind⟩ := of_decide_eq_true h
  have hx : s.SourceFile smallSource.names [] :=
    ⟨smallRoot.names, .directory 0, ["src".toList, "A.kt".toList], 0, hroot, rfl, hsource, hfind⟩
  exact ⟨s, hs, hx,
    Call.spares (reachable_small (by decide +kernel) (by decide +kernel) hs) _ hx⟩

/-- The small project with the directory of its source for an output directory. -/
def crossed? : Option Session :=
  openOn smallRoot { Overrides.none with outputDir := .str "src".toList } (idle (smallTree []))

/-- Where the output directory is one with sources in it, a rebuild deletes the sources. -/
theorem not_spared_in_output_directory : ∃ s report s', crossed? = some s ∧ Reachable s
    ∧ s.SourceFile smallSource.names [] ∧ (Call.rebuild [] []).run.runOn s = (.ok report, s')
    ∧ s'.host.disk.tree.find? smallSource.names = none := by
  have hrun : (crossed?.map fun s => decide (
      s.host.disk.place true s.project.settings.projectRoot
          = .ok (.present smallRoot.names (.directory 0))
        ∧ s.project.settings.sources.isSource "src/A.kt".toList = true
        ∧ s.host.disk.tree.find? smallSource.names = some (.file [] 0)
        ∧ Ends ((Call.rebuild [] []).run.runOn s)
          (fun _ s' => s'.host.disk.tree.find? smallSource.names = none) (fun _ _ => False)))
      = some true := by
    decide +kernel
  obtain ⟨s, hs, h⟩ := Option.map_eq_some_iff.mp hrun
  obtain ⟨hroot, hsource, hfind, hends⟩ := of_decide_eq_true h
  have hreach : Reachable s := reachable_idle (by decide +kernel) (by decide +kernel)
    (fun p hp => by simp [Overrides.none] at hp) hs
  rcases hr : (Call.rebuild [] []).run.runOn s with ⟨f | report, s'⟩
  · rw [hr] at hends
    exact hends.elim
  · rw [hr] at hends
    exact ⟨s, report, s', hs, hreach,
      ⟨smallRoot.names, .directory 0, ["src".toList, "A.kt".toList], 0, hroot, rfl, hsource, hfind⟩,
      hr, hends⟩

end Call

end Provenance.Session
