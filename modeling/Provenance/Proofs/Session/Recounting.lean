/-
Sessions that count their cycles differently.

Two sessions that have recorded the same may differ in how many cycles they have counted. All
that comes of it is the name of a cycle, in a report and in the line that is written down of
it. So their hosts drift apart in the lines of the journal alone, and as long as no file is
read that such a line has got into, the sessions go side by side.

Here it is shown that this is a kinship of sessions like any other: on such hosts the calls of
the store do the same, and the same sources are found.
-/
import Provenance.Proofs.Disk.Renamed
import Provenance.Proofs.Session.Parallel
import Provenance.Proofs.SourceSet.Shuffle

set_option autoImplicit false

namespace Provenance

open Action Host

/-! ## Sources -/

namespace SourceSet

variable {d d' : Disk}

/-- What is found below a directory depends on names and kinds alone. -/
theorem foundBelow_renamed (h : d.Renamed d') (root : Path) (rules : SourceSettings) (start : Path) :
    foundBelow d' root rules start = foundBelow d root rules start := by
  have hdir : d'.hasDirectory start = d.hasDirectory start := h.holds_eq Entry.isDirectory_kind start
  have hstat := h.stat start
  unfold foundBelow
  rw [hdir]
  rcases d.hasDirectory start with e | _ | _
  · rfl
  · rfl
  dsimp only
  generalize d.stat start = x at hstat ⊢
  generalize d'.stat start = y at hstat ⊢
  cases hstat with
  | error e => rfl
  | @ok le le' hle =>
    obtain ⟨l, e⟩ := le
    obtain ⟨l', e'⟩ := le'
    obtain ⟨rfl, -⟩ := hle
    dsimp only
    have hinside : (d.tree.inside l).map Tree.kindAt = (d'.tree.inside l).map Tree.kindAt := by
      rw [← Tree.inside_skeleton, h.alike, Tree.inside_skeleton]
    have hshown := Tree.filter_kindAt hinside
      (q := fun ne => !Disk.isOverlong (start.descend ne.1.dropLast)) fun _ => rfl
    generalize (d.tree.inside l).filter _ = xs at hshown ⊢
    generalize (d'.tree.inside l).filter _ = ys at hshown ⊢
    have hfirst : firstNames ys = firstNames xs := by
      have hnames : (xs.filter fun ne => ne.1.length = 1).map Prod.fst
          = (ys.filter fun ne => ne.1.length = 1).map Prod.fst :=
        Tree.shown_eq hshown (g := id) fun _ => rfl
      rw [firstNames, firstNames, ← List.getLast?_map, ← List.getLast?_map, hnames]
    cases xs with
    | nil => rw [List.map_eq_nil_iff.mp hshown.symm]
    | cons ne xs =>
      cases ys with
      | nil => exact nomatch hshown
      | cons ne' ys =>
        dsimp only
        rw [hfirst]
        split
        · rfl
        · rename_i base _
          rw [Tree.shown_eq hshown (g := fun names => (base.descend names).text)
            (q := fun ne => reports rules base ne.1 ne.2)]
          exact fun ne => by rw [reports, reports, Tree.kindAt, Entry.isFile_kind]

theorem foundBelowAll_renamed (h : d.Renamed d') (root : Path) (rules : SourceSettings)
    (dirs : List Text) : foundBelowAll d' root rules dirs = foundBelowAll d root rules dirs := by
  induction dirs with
  | nil => rfl
  | cons dir dirs ih => rw [foundBelowAll, foundBelowAll, foundBelow_renamed h, ih]

/-- The same sources are discovered. -/
theorem sameView_of_renamed (h : d.Renamed d') : SameView d d' where
  discover root rules := by
    unfold discover
    rw [h.absolute_eq]
    simp only [foundBelowAll_renamed h]
  hasFile p := h.holds_eq Entry.isFile_kind p

end SourceSet

/-! ## Hosts -/

/-- The second host is the first one with cycles renamed in some files. -/
structure Host.Renamed (h h' : Host) : Prop where
  disk : h.disk.Renamed h'.disk
  clock : h'.clock = h.clock
  faults : h'.faults = h.faults

theorem Host.Renamed.refl (h : Host) : h.Renamed h := ⟨.refl _, rfl, rfl⟩

/-- A call that changes renamed disks in the same way. -/
theorem lockstep_change {p : Path} {change change' : Disk → Int → Except Errno Disk}
    (hchange : ∀ {d d' : Disk}, d.Renamed d' → ∀ now,
      Matched Disk.Renamed (change d now) (change' d' now)) :
    Lockstep Host.Renamed Eq (call p change) (call p change') := by
  intro h h' hh
  have hmatch := hchange hh.disk h.clock.now
  rcases hc : change h.disk h.clock.now with e | d
  all_goals
    rcases hc' : change' h'.disk h'.clock.now with e' | d'
    all_goals
      rw [hc, ← hh.clock, hc'] at hmatch
      cases hmatch
  · rw [runOn_call_error hc, runOn_call_error hc']
    exact abreast_error hh
  · rename_i hd
    rw [runOn_call_ok hc, runOn_call_ok hc']
    exact abreast_ok rfl ⟨hd, congrArg Clock.next hh.clock, hh.faults⟩

theorem lockstep_meetFault (method : StoreMethod) (p : Path) :
    Lockstep Host.Renamed Eq (meetFault method p) (meetFault method p) := by
  intro h h' hh
  have hfault : h'.fault? method p = h.fault? method p := by rw [fault?, fault?, hh.faults]
  have hstruck : (h.struck method p).Renamed (h'.struck method p) :=
    ⟨hh.disk, hh.clock, by rw [struck, struck, hh.faults]⟩
  cases hf : h.fault? method p with
  | none =>
    rw [runOn_meetFault_none hf, runOn_meetFault_none (hfault.trans hf)]
    exact abreast_ok rfl hstruck
  | some fault =>
    rw [runOn_meetFault_some hf, runOn_meetFault_some (hfault.trans hf)]
    exact abreast_error hstruck

theorem StoreChange.renamed (change : StoreChange) (p : Path) {d d' : Disk} (h : d.Renamed d')
    (now : Int) : Matched Disk.Renamed (change.on p d now) (change.on p d' now) := by
  cases change with
  | createFile => exact h.make p (.file [] now) now
  | makeDirectory => exact h.make p (.directory now) now
  | unlink => exact h.unlink p now
  | removeDirectory => exact h.removeDirectory p now

/-- Hosts with other names for cycles mirror each other. -/
theorem mirroring_renamed : Mirroring Host.Renamed where
  alike h := h.disk.alike
  meetFault := lockstep_meetFault
  change change {p h h' d d'} _ hh hd hd' := by
    have hmatch := change.renamed p hh.disk h.clock.now
    rw [hd, ← hh.clock, hd'] at hmatch
    cases hmatch with
    | ok hdisk => exact ⟨hdisk, congrArg Clock.next hh.clock, hh.faults⟩

theorem lockstep_touch (p : Path) : Lockstep Host.Renamed Eq (Store.touch p) (Store.touch p) := by
  refine lockstep_bind_eq (lockstep_meetFault _ p) fun _ => lockstep_change fun {d d'} h now => ?_
  have hstat := h.stat p
  unfold Store.touched
  generalize d.stat p = x at hstat ⊢
  generalize d'.stat p = y at hstat ⊢
  cases hstat with
  | error e => exact .error e
  | @ok le le' hle =>
    show Matched Disk.Renamed (d.setTime p (max now (le.2.time + 1)))
      (d'.setTime p (max now (le'.2.time + 1)))
    rw [hle.2.time_eq]
    exact h.setTime p _

/-- An event is written down with another name for its cycle. -/
theorem lockstep_append (p : Path) (e : Event) (id id' : Text) :
    Lockstep Host.Renamed Eq (Journal.append p { e with cycleId := id })
      (Journal.append p { e with cycleId := id' }) :=
  lockstep_change fun h now => h.append p (.event e id id') now

/-! ## Sessions -/

namespace Session

/-- What is read of the file has the line of an event in it. -/
def HoldsEvent (d : Disk) (f : TrackedFile) : Prop :=
  ∃ content, d.read f.location = .ok content ∧ Journal.Holds content

/-- Everything is the same on both sides but the numbers of cycles and publications, what comes of them,
and, until something has been reported, what was reported before. -/
def recounting : Kinship where
  hosts := Host.Renamed
  sources := SourceSet.Shuffled
  readable d f := ¬HoldsEvent d f
  counts _ _ := True
  lasts last last' := last' = last ∨ last' = none

/-- A file that holds no event is the same on both sides. -/
theorem stat_eq_of_renamed {d d' : Disk} {f : TrackedFile} (h : d.Renamed d') (hf : ¬HoldsEvent d f) :
    d'.stat f.location = d.stat f.location :=
  h.stat_eq fun l content time hstat hholds => hf ⟨content, by rw [Disk.read, hstat], hholds⟩

theorem lawful_recounting : recounting.Lawful where
  mirroring := mirroring_renamed
  touch _ := lockstep_touch _
  rules h := h.sameRules
  listed h := SourceSet.lockstep_listed (SourceSet.sameView_of_renamed h.disk)
  unitOf h hread := SourceSet.lockstep_unitOf (SourceSet.sameView_of_renamed h.disk)
    (stat_eq_of_renamed h.disk hread)
  readClock h _ hh := by
    rw [runOn_readClock, runOn_readClock, hh.clock]
    exact abreast_ok rfl ⟨hh.disk, rfl, hh.faults⟩
  track h f := SourceSet.lockstep_trackIfPresent (SourceSet.sameView_of_renamed h.disk) f
  append e _ _ _ _ := lockstep_append _ e _ _
  next _ := trivial
  reported _ := .inl rfl

end Session

end Provenance
