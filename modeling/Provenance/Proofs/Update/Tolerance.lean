/-
What a sweep can come to where calls fail.

On a host whose faults are failed calls, the store fails as a call does, with one exception:
a search through directories that are too deep. A sweep takes note of every failed call and
goes on. `SweepRun` lists what a run of it can be, by the calls that succeed and the one
that does not: the listing may fail, any of the files may stay, and so may the directories;
only the search that is too deep ends it.
-/
import Provenance.Proofs.Update.Exact

set_option autoImplicit false

namespace Provenance

open Action Host

/-! ## Actions that fail as calls do -/

namespace Host

variable {α β : Type} {h : Host}

/-- On a host whose faults are failed calls, the action fails only as a call does, and leaves such a
host behind. -/
def FailsAsCall (act : Action Host α) : Prop :=
  ∀ h : Host, h.OnlyIo → Ends (act.runOn h) (fun _ h' => h'.OnlyIo)
    fun f h' => h'.OnlyIo ∧ ∃ e, f = ⟨.io e, []⟩

theorem failsAsCall_pure (a : α) : FailsAsCall (pure a : Action Host α) := fun _ hio => hio

theorem failsAsCall_get : FailsAsCall (get : Action Host Host) := fun _ hio => hio

theorem failsAsCall_bind {act : Action Host α} {k : α → Action Host β} (h : FailsAsCall act)
    (hk : ∀ a, FailsAsCall (k a)) : FailsAsCall (act >>= k) := fun s hio =>
  ends_bind (h s hio) fun a s' hio' => hk a s' hio'

theorem failsAsCall_fail (e : IoError) : FailsAsCall (Action.fail (.io e) : Action Host α) :=
  fun _ hio => ⟨hio, e, rfl⟩

theorem failsAsCall_ask (path : Path) (question : Disk → Except Errno α) :
    FailsAsCall (ask path question) := by
  intro h hio
  rw [runOn_ask]
  cases question h.disk with
  | ok a => exact hio
  | error e => exact ⟨hio, _, rfl⟩

theorem failsAsCall_meetFault (method : StoreMethod) (path : Path) :
    FailsAsCall (meetFault method path) := by
  intro h hio
  rcases hf : h.fault? method path with _ | fault
  · rw [runOn_meetFault_none hf]
    exact hio.struck method path
  · obtain ⟨e, he⟩ := hio.cause hf
    rw [runOn_meetFault_some hf, he]
    exact ⟨hio.struck method path, e, rfl⟩

theorem failsAsCall_call (path : Path) (change : Disk → Int → Except Errno Disk) :
    FailsAsCall (call path change) := by
  intro h hio
  rcases hc : change h.disk h.clock.now with e | d
  · rw [runOn_call_error hc]
    exact ⟨hio, _, rfl⟩
  · rw [runOn_call_ok hc]
    exact hio

theorem failsAsCall_makeDirectory (path : Path) : FailsAsCall (makeDirectory path) := by
  intro h hio
  rcases hc : h.disk.makeDirectory path h.clock.now with e | d
  · rw [runOn_makeDirectory_error hc]
    rcases h.disk.hasDirectory path with e' | b
    · exact ⟨hio, _, rfl⟩
    · cases b with
      | false => exact ⟨hio, _, rfl⟩
      | true => exact hio
  · rw [runOn_makeDirectory_ok hc]
    exact hio

theorem failsAsCall_forM {f : α → Action Host PUnit} (xs : List α) (h : ∀ x, FailsAsCall (f x)) :
    FailsAsCall (xs.forM f) := by
  induction xs with
  | nil => exact failsAsCall_pure _
  | cons x xs ih => exact failsAsCall_bind (h x) fun _ => ih

end Host

namespace Store

theorem failsAsCall_createIfAbsent (path : Path) : FailsAsCall (createIfAbsent path) := by
  apply failsAsCall_bind (failsAsCall_meetFault _ _)
  intro _ h hio
  rw [runOn_bind, runOn_get]
  dsimp only
  split
  · exact hio
  · exact hio
  · exact ⟨hio, _, rfl⟩

theorem failsAsCall_touch (path : Path) : FailsAsCall (touch path) :=
  failsAsCall_bind (failsAsCall_meetFault _ _) fun _ => failsAsCall_call _ _

theorem failsAsCall_missingDirectories (k : Nat) (path : Path) :
    FailsAsCall (missingDirectories k path) := by
  induction k generalizing path with
  | zero =>
    refine failsAsCall_bind (failsAsCall_ask _ _) fun there => ?_
    cases there <;> exact failsAsCall_pure _
  | succ k ih =>
    refine failsAsCall_bind (failsAsCall_ask _ _) fun there => ?_
    cases there with
    | true => exact failsAsCall_pure _
    | false => exact failsAsCall_bind (ih _) fun _ => failsAsCall_pure _

theorem failsAsCall_createDirectories (path : Path) : FailsAsCall (createDirectories path) := by
  refine failsAsCall_bind (failsAsCall_meetFault _ _) fun _ => ?_
  refine failsAsCall_bind (failsAsCall_missingDirectories _ _) fun missing => ?_
  exact failsAsCall_bind (failsAsCall_forM _ failsAsCall_makeDirectory) fun _ => failsAsCall_pure _

theorem failsAsCall_delete (path : Path) : FailsAsCall (delete path) :=
  failsAsCall_bind (failsAsCall_meetFault _ _) fun _ => failsAsCall_call _ _

theorem failsAsCall_removeDirectory (path : Path) : FailsAsCall (removeDirectory path) :=
  failsAsCall_bind (failsAsCall_meetFault _ _) fun _ => failsAsCall_call _ _

theorem failsAsCall_inDirectory {α : Type} (root : Path) {k : Location → Action Host (List α)}
    (hk : ∀ l, FailsAsCall (k l)) : FailsAsCall (inDirectory root k) := by
  apply failsAsCall_bind (failsAsCall_ask _ _)
  intro b
  cases b
  · exact failsAsCall_pure _
  · exact failsAsCall_bind (failsAsCall_ask _ _) fun le => hk le.1

theorem failsAsCall_listFiles (root : Path) : FailsAsCall (listFiles root) := by
  apply failsAsCall_bind (failsAsCall_meetFault _ _)
  intro _
  refine failsAsCall_bind ?_ fun found => ?_
  · rw [below_eq]
    exact failsAsCall_inDirectory root fun l => failsAsCall_bind failsAsCall_get fun _ =>
      failsAsCall_pure _
  · dsimp only
    split
    · exact failsAsCall_fail _
    · exact failsAsCall_pure _

theorem failsAsCall_removeIfEmpty (root : Path) (todo : List (List Text)) :
    FailsAsCall (removeIfEmpty root todo) := by
  induction todo with
  | nil => exact failsAsCall_pure _
  | cons names todo ih =>
    refine failsAsCall_bind (failsAsCall_ask _ _) fun le =>
      failsAsCall_bind failsAsCall_get fun h => ?_
    split
    · exact failsAsCall_bind (failsAsCall_removeDirectory _) fun _ =>
        failsAsCall_bind ih fun _ => failsAsCall_pure _
    · exact ih

/-- Removing the empty directories fails as a call does, or because some directory lies too deep. -/
theorem ends_removeEmptyDirectories (root : Path) {h : Host} (hio : h.OnlyIo) :
    Ends ((removeEmptyDirectories root).runOn h) (fun _ h' => h'.OnlyIo)
      fun f h' => h'.OnlyIo ∧ ((∃ e, f = ⟨.io e, []⟩) ∨ f = ⟨.deepSearch, []⟩) := by
  have hlist : FailsAsCall (directoriesBelow root) := by
    rw [directoriesBelow_eq]
    exact failsAsCall_inDirectory root fun l => failsAsCall_bind failsAsCall_get fun _ =>
      failsAsCall_pure _
  unfold removeEmptyDirectories
  refine ends_bind ((failsAsCall_meetFault _ _ h hio).imp (fun _ _ hq => hq)
    fun f _ hf => ⟨hf.1, .inl hf.2⟩) fun _ h₁ hio₁ => ?_
  refine ends_bind ((hlist h₁ hio₁).imp (fun _ _ hq => hq) fun f _ hf => ⟨hf.1, .inl hf.2⟩)
    fun directories h₂ hio₂ => ?_
  dsimp only
  split
  · exact ⟨hio₂, .inr rfl⟩
  · exact ends_bind ((failsAsCall_removeIfEmpty _ _ h₂ hio₂).imp (fun _ _ hq => hq)
      fun f _ hf => ⟨hf.1, .inl hf.2⟩) fun _ h₃ hio₃ => hio₃

end Store

namespace Update

variable {l : Layout} {entries : Entries} {h h' : Host}

/-! ## Going on after a failure -/

/-- Whatever calls fail, all listed files are gone through. -/
theorem sweepFiles_returns (hs : l.Sound) (listed : List (List Text)) (hio : h.OnlyIo) :
    ∃ swept h', (sweepFiles l entries (listed.map l.outputRoot.descend)).runOn h = (.ok swept, h')
      ∧ h'.OnlyIo := by
  induction listed generalizing h with
  | nil => exact ⟨_, h, rfl, hio⟩
  | cons names listed ih =>
    obtain ⟨key, hkey⟩ := hs.key_descend names
    rw [List.map_cons, sweepFiles, runOn_bind_ok (runOn_key hkey h)]
    dsimp only
    split
    · exact ih hio
    have hends := Store.failsAsCall_delete (l.outputRoot.descend names) h hio
    rcases hdelete : (Store.delete (l.outputRoot.descend names)).runOn h with ⟨f | u, h₁⟩
    · rw [hdelete] at hends
      obtain ⟨hio₁, e, rfl⟩ := hends
      obtain ⟨swept, h₂, hrun, hio₂⟩ := ih hio₁
      rw [runOn_bind_ok (tolerate_of_io hdelete rfl)]
      dsimp only
      rw [runOn_bind_ok hrun]
      exact ⟨_, h₂, rfl, hio₂⟩
    · rw [hdelete] at hends
      obtain ⟨swept, h₂, hrun, hio₂⟩ := ih hends
      rw [runOn_bind_ok (tolerate_of_ok hdelete)]
      dsimp only
      rw [runOn_bind_ok hrun]
      exact ⟨_, h₂, rfl, hio₂⟩

/-! ## Runs of a sweep -/

/-- What a run of a sweep can be, on a host whose faults are failed calls. -/
inductive SweepRun (l : Layout) (entries : Entries) (h : Host) :
    Except Failure SweepResult × Host → Prop where
  /-- the files could not be listed, and nothing else is tried -/
  | unlisted {key : Text} {e : IoError} {h₁ : Host}
    (hlist : (Store.listFiles l.outputRoot).runOn h = (.error ⟨.io e, []⟩, h₁))
    (hkey : l.outputRoot.key l.projectRoot = .ok key) :
    SweepRun l entries h (.ok ⟨[], [], [⟨key, e.reason⟩]⟩, h₁)
  /-- directories are not to be removed -/
  | kept {listed : List (List Text)} {deleted : List Text} {failures : List SweepFailure} {h₂ : Host}
    (hscan : Scanned l entries h listed deleted failures h₂) (hprune : l.prune = false) :
    SweepRun l entries h (.ok ⟨deleted, [], failures⟩, h₂)
  /-- the empty directories have been removed -/
  | pruned {listed emptied : List (List Text)} {deleted keys : List Text}
    {failures : List SweepFailure} {h₂ h₃ : Host}
    (hscan : Scanned l entries h listed deleted failures h₂) (hprune : l.prune = true)
    (hremove : (Store.removeEmptyDirectories l.outputRoot).runOn h₂
      = (.ok (emptied.map l.outputRoot.descend), h₃))
    (hkeys : keys.map Except.ok = (emptied.map l.outputRoot.descend).map (·.key l.projectRoot)) :
    SweepRun l entries h (.ok ⟨deleted, keys, failures⟩, h₃)
  /-- a call failed while the directories were removed -/
  | unpruned {listed : List (List Text)} {deleted : List Text} {failures : List SweepFailure}
    {key : Text} {e : IoError} {h₂ h₃ : Host}
    (hscan : Scanned l entries h listed deleted failures h₂) (hprune : l.prune = true)
    (hremove : (Store.removeEmptyDirectories l.outputRoot).runOn h₂ = (.error ⟨.io e, []⟩, h₃))
    (hkey : l.outputRoot.key l.projectRoot = .ok key) :
    SweepRun l entries h (.ok ⟨deleted, [], failures ++ [⟨key, e.reason⟩]⟩, h₃)
  /-- some directory lies too deep -/
  | tripped {listed : List (List Text)} {deleted : List Text} {failures : List SweepFailure}
    {h₂ h₃ : Host} (hscan : Scanned l entries h listed deleted failures h₂) (hprune : l.prune = true)
    (hremove : (Store.removeEmptyDirectories l.outputRoot).runOn h₂ = (.error ⟨.deepSearch, []⟩, h₃)) :
    SweepRun l entries h (.error ⟨.deepSearch, []⟩, h₃)

theorem sweepRun (hs : l.Sound) (hd : h.disk.Legal) (hio : h.OnlyIo) :
    SweepRun l entries h ((sweep l entries).runOn h) := by
  have habs := (hs.output.straight hs.root).isAbsolute
  obtain ⟨rootKey, hrootKey⟩ : ∃ key, l.outputRoot.key l.projectRoot = .ok key := by
    have hnil := hs.key_descend []
    rwa [Path.descend_nil] at hnil
  have hlistEnds := Store.failsAsCall_listFiles l.outputRoot h hio
  rcases hlist : (Store.listFiles l.outputRoot).runOn h with ⟨f | files, h₁⟩
  · rw [hlist] at hlistEnds
    obtain ⟨-, e, rfl⟩ := hlistEnds
    rw [sweep, runOn_bind_ok (tolerate_of_io hlist rfl)]
    dsimp only
    rw [runOn_bind_ok (runOn_key hrootKey h₁)]
    exact .unlisted hlist hrootKey
  rw [hlist] at hlistEnds
  obtain ⟨-, listed, rfl, -⟩ := Store.listFiles_listed hd habs hlist
  obtain ⟨⟨deleted, failures⟩, h₂, hswept, hio₂⟩ :
      ∃ swept h₂, (sweepFiles l entries (listed.map l.outputRoot.descend)).runOn h₁ = (.ok swept, h₂)
        ∧ h₂.OnlyIo := sweepFiles_returns hs listed hlistEnds
  have hscan : Scanned l entries h listed deleted failures h₂ := ⟨h₁, hlist, hswept⟩
  by_cases hprune : l.prune = true
  swap
  · rw [sweep_of_kept hlist hswept hprune]
    exact .kept hscan (by simpa using hprune)
  have hends := Store.ends_removeEmptyDirectories l.outputRoot hio₂
  rcases hremove : (Store.removeEmptyDirectories l.outputRoot).runOn h₂ with ⟨f | dirs, h₃⟩
  · rw [hremove] at hends
    -- a failed call is told of; a search that goes too deep is not a failed call
    obtain ⟨-, ⟨e, rfl⟩ | rfl⟩ := hends
    · have hrun : (pruneDirs l).runOn h₂ = (.ok ([], [⟨rootKey, e.reason⟩]), h₃) := by
        unfold pruneDirs
        rw [runOn_bind_ok (tolerate_of_io hremove rfl)]
        dsimp only
        rw [runOn_bind_ok (runOn_key hrootKey h₃)]
        rfl
      rw [sweep_of_pruned hlist hswept hprune hrun]
      exact .unpruned hscan hprune hremove hrootKey
    · have hrun : (pruneDirs l).runOn h₂ = (.error ⟨.deepSearch, []⟩, h₃) := by
        unfold pruneDirs
        rw [runOn_bind_error (tolerate_of_trip hremove (by simp))]
      rw [sweep_of_tripped hlist hswept hprune hrun]
      exact .tripped hscan hprune hremove
  · obtain ⟨-, removed, -, -, -, -, -, -, rfl⟩ := Store.removeEmptyDirectories_runs hremove
    obtain ⟨keys, hkeys, hmap⟩ := hs.keys (sorted removed.reverse) h₃
    rw [sweep_of_pruned hlist hswept hprune (pruneDirs_of_ok hremove hkeys)]
    have hends : SweepRun l entries h (.ok ⟨deleted, keys, failures⟩, h₃) :=
      .pruned hscan hprune hremove hmap
    simpa using hends

end Update

end Provenance
