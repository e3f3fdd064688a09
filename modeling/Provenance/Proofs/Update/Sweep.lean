/-
What a sweep leaves alone.

A sweep deletes files and removes directories, and asks what there is. A relation
between disks that neither disturbs is not disturbed by a sweep.
-/
import Provenance.Update.Sweep
import Provenance.Proofs.Store
import Provenance.Proofs.Update.Layout

set_option autoImplicit false

namespace Provenance.Update

open Action Host

variable {R : Disk → Disk → Prop}

theorem respects_tolerate {α : Type} (hR : Stepwise (Across R)) {act : Action Host α}
    (h : Respects (Across R) act) : Respects (Across R) (tolerate act) := by
  apply respects_bind hR (respects_attempt h)
  intro r
  cases r with
  | ok a => exact respects_pure hR _
  | error f =>
    dsimp only
    split
    · exact respects_pure hR _
    · exact respects_throw hR _

section Tolerate

variable {α : Type} {act : Action Host α} {a : α} {e : IoError} {f : Failure} {h h' : Host}

/-- A call that succeeds is tolerated. -/
theorem tolerate_of_ok (hr : act.runOn h = (.ok a, h')) :
    (tolerate act).runOn h = (.ok (.ok a), h') := by
  unfold tolerate
  rw [runOn_bind, runOn_attempt, hr]
  rfl

/-- A failed call is tolerated. -/
theorem tolerate_of_io (hr : act.runOn h = (.error f, h')) (hf : f.cause = .io e) :
    (tolerate act).runOn h = (.ok (.error e), h') := by
  unfold tolerate
  rw [runOn_bind, runOn_attempt, hr]
  dsimp only
  rw [hf]
  rfl

/-- What fails in another way than by a failed call is not tolerated. -/
theorem tolerate_of_trip (hr : act.runOn h = (.error f, h')) (hf : ∀ e, f.cause ≠ .io e) :
    (tolerate act).runOn h = (.error f, h') := by
  unfold tolerate
  rw [runOn_bind, runOn_attempt, hr]
  obtain ⟨cause, notes⟩ := f
  cases cause with
  | io e => exact absurd rfl (hf e)
  | _ => rfl

/-- A run that is tolerated is that of the action itself, one way or the other. -/
theorem tolerate_runs {r : Except IoError α} (hr : (tolerate act).runOn h = (.ok r, h')) :
    (∃ a, r = .ok a ∧ act.runOn h = (.ok a, h'))
      ∨ ∃ e f, r = .error e ∧ f.cause = .io e ∧ act.runOn h = (.error f, h') := by
  rcases hact : act.runOn h with ⟨f | a, h₁⟩
  · by_cases hio : ∃ e, f.cause = .io e
    · obtain ⟨e, he⟩ := hio
      rw [tolerate_of_io hact he] at hr
      obtain ⟨heq, rfl⟩ := Prod.mk.inj hr
      exact .inr ⟨e, f, (Except.ok.inj heq).symm, he, rfl⟩
    · rw [tolerate_of_trip hact fun e he => hio ⟨e, he⟩] at hr
      exact nomatch (Prod.mk.inj hr).1
  · rw [tolerate_of_ok hact] at hr
    obtain ⟨heq, rfl⟩ := Prod.mk.inj hr
    exact .inl ⟨a, (Except.ok.inj heq).symm, rfl⟩

/-- An action that is tolerated has the result it has by itself. -/
theorem tolerate_ok (hr : (tolerate act).runOn h = (.ok (.ok a), h')) :
    act.runOn h = (.ok a, h') := by
  obtain ⟨b, heq, hact⟩ | ⟨e, f, heq, -⟩ := tolerate_runs hr
  · exact Except.ok.inj heq ▸ hact
  · exact nomatch heq

/-- A failed call that is tolerated is one that the action fails with by itself. -/
theorem tolerate_error (hr : (tolerate act).runOn h = (.ok (.error e), h')) :
    ∃ f, f.cause = .io e ∧ act.runOn h = (.error f, h') := by
  obtain ⟨b, heq, -⟩ | ⟨e', f, heq, hcause, hact⟩ := tolerate_runs hr
  · exact nomatch heq
  · exact ⟨f, Except.error.inj heq ▸ hcause, hact⟩

end Tolerate

theorem respects_key (hR : Stepwise (Across R)) (l : Layout) (p : Path) :
    Respects (Across R) (l.key p) := respects_ofExcept hR _ _

theorem respects_keys (hR : Stepwise (Across R)) (l : Layout) (ps : List Path) :
    Respects (Across R) (l.keys ps) := by
  induction ps with
  | nil => exact respects_pure hR _
  | cons p ps ih =>
    apply respects_bind hR (respects_key hR l p)
    intro _
    exact respects_bind hR ih fun _ => respects_pure hR _

/-- Making out keys leaves the host as it is. -/
theorem keys_ok {l : Layout} {ps : List Path} {keys : List Text} {h h' : Host}
    (hr : (l.keys ps).runOn h = (.ok keys, h')) : h' = h := by
  induction ps generalizing keys h' with
  | nil => exact (Prod.mk.inj hr).2.symm
  | cons p ps ih =>
    obtain ⟨key, h₁, hkey, hrest⟩ := bind_ok_iff.mp hr
    obtain ⟨-, rfl⟩ := ofExcept_ok_iff.mp hkey
    obtain ⟨more, h₂, hmore, hpure⟩ := bind_ok_iff.mp hrest
    obtain rfl : h₂ = h' := (Prod.mk.inj hpure).2
    exact ih hmore

/-- Removing empty directories within an update disturbs nothing that the call of the store does
not. -/
theorem respects_pruneDirs (hR : Stepwise (Across R)) (l : Layout)
    (hremove : Respects (Across R) (Store.removeEmptyDirectories l.outputRoot)) :
    Respects (Across R) (pruneDirs l) := by
  refine respects_bind hR (respects_tolerate hR hremove) fun r => ?_
  cases r
  · exact respects_bind hR (respects_key hR _ _) fun _ => respects_pure hR _
  · exact respects_bind hR (respects_keys hR _ _) fun _ => respects_pure hR _

/-- Deleting the files without a source disturbs nothing that deleting one of them does not. -/
theorem respects_sweepFiles (hR : Stepwise (Across R)) (l : Layout) (entries : Entries)
    (files : List Path) (hdelete : ∀ p ∈ files, ∀ key, p.key l.projectRoot = .ok key →
      entries.sourcesOf key = [] → Respects (Across R) (Store.delete p)) :
    Respects (Across R) (sweepFiles l entries files) := by
  induction files with
  | nil => exact respects_pure hR _
  | cons file files ih =>
    have hothers := ih fun p hp => hdelete p (List.mem_cons_of_mem _ hp)
    refine respects_bind_of hR (respects_key hR l file) (P := fun key =>
      file.key l.projectRoot = .ok key) (fun _ _ _ hr => (ofExcept_ok_iff.mp hr).1) fun key hkey => ?_
    dsimp only
    split
    · exact hothers
    · rename_i hunmapped
      apply respects_bind hR (respects_tolerate hR
        (hdelete file (List.mem_cons_self ..) key hkey (not_not.mp hunmapped)))
      intro r
      cases r <;> exact respects_bind hR hothers fun _ => respects_pure hR _

/-- A sweep disturbs nothing that neither deleting what is listed nor removing directories
disturbs. -/
theorem respects_sweep_of {I : Host → Prop} {Q : Path → Prop} (hR : Stepwise (Across R))
    (hI : ∀ {h h'}, (I h → Across R h h') → Across R h h') (l : Layout) (entries : Entries)
    (hlisted : ∀ h files h', I h → (Store.listFiles l.outputRoot).runOn h = (.ok files, h') →
      ∀ p ∈ files, Q p)
    (hdelete : ∀ p, Q p → Respects (Across R) (Store.delete p))
    (hremove : Respects (Across R) (Store.removeEmptyDirectories l.outputRoot)) :
    Respects (Across R) (sweep l entries) := by
  refine respects_bind_under hR hI (respects_tolerate hR (Store.respects_listFiles hR _))
    (P := fun r => ∀ files, r = .ok files → ∀ p ∈ files, Q p) ?_ fun r hQ => ?_
  · rintro h _ h' hI hrun files rfl
    exact hlisted h files h' hI (tolerate_ok hrun)
  cases r with
  | error e => exact respects_bind hR (respects_key hR _ _) fun _ => respects_pure hR _
  | ok files =>
    apply respects_bind hR (respects_sweepFiles hR l entries files fun p hp _ _ _ =>
      hdelete p (hQ files rfl p hp))
    intro swept
    dsimp only
    split
    · exact respects_bind hR (respects_pruneDirs hR l hremove) fun _ => respects_pure hR _
    · exact respects_pure hR _

theorem respects_sweep (hR : Stepwise (Across R)) (l : Layout) (entries : Entries)
    (hdelete : ∀ p, Respects (Across R) (Store.delete p))
    (hremove : ∀ names, Respects (Across R) (Store.removeDirectory (l.outputRoot.descend names))) :
    Respects (Across R) (sweep l entries) :=
  respects_sweep_of (I := fun _ => True) (Q := fun _ => True) hR (fun h => h trivial) l entries
    (fun _ _ _ _ _ _ _ => trivial) (fun p _ => hdelete p)
    (Store.respects_removeEmptyDirectories hR _ hremove)

theorem staysLegal_sweep (l : Layout) (entries : Entries) :
    Respects (Across StaysLegal) (sweep l entries) :=
  respects_sweep stepwise_staysLegal l entries Store.staysLegal_delete fun _ =>
    Store.staysLegal_removeDirectory _

/-! ## Failures -/

/-- What makes a sweep trip: a call that crashes, or directories too deep to be looked through. It
passes over failed calls. -/
def IsTrip : Failure → Prop
  | ⟨.crash _, []⟩ => True
  | ⟨.deepSearch, []⟩ => True
  | _ => False

theorem IsTrip.cases {f : Failure} (h : IsTrip f) :
    (∃ message, f = ⟨.crash message, []⟩) ∨ f = ⟨.deepSearch, []⟩ := by
  obtain ⟨cause, notes⟩ := f
  cases notes with
  | nil => cases cause <;> simp_all [IsTrip]
  | cons note notes => cases cause <;> exact h.elim

section Failures

variable {P : Failure → Prop} (htrip : ∀ f, IsTrip f → P f) {l : Layout}
  (hkey : ∀ names, Blames P (l.key (l.outputRoot.descend names)))
include htrip

/-- What tolerates failed calls fails only in other ways. -/
theorem blames_tolerate {α : Type} {act : Action Host α}
    (h : Blames (fun f => IsCall f ∨ f = ⟨.deepSearch, []⟩) act) : Blames P (tolerate act) := by
  refine blames_attempt_bind h (fun _ => blames_pure _) fun f hf => ?_
  dsimp only
  split
  · exact blames_pure _
  · rename_i hnot
    refine blames_throw (htrip f ?_)
    rcases hf with hc | rfl
    · obtain ⟨cause, notes⟩ := f
      obtain ⟨rfl, ⟨e, rfl⟩ | ⟨message, rfl⟩⟩ := hc.cases
      · exact absurd rfl (hnot e)
      · trivial
    · trivial

include hkey

omit htrip in
theorem blames_keys {ps : List Path} (hps : ∀ p ∈ ps, ∃ names, p = l.outputRoot.descend names) :
    Blames P (l.keys ps) := by
  induction ps with
  | nil => exact blames_pure _
  | cons p ps ih =>
    obtain ⟨names, rfl⟩ := hps p (List.mem_cons_self ..)
    apply blames_bind (hkey names)
    intro _
    exact blames_bind (ih fun q hq => hps q (List.mem_cons_of_mem _ hq)) fun _ => blames_pure _

theorem blames_sweepFiles (entries : Entries) {files : List Path}
    (hfiles : ∀ p ∈ files, ∃ names, p = l.outputRoot.descend names) :
    Blames P (sweepFiles l entries files) := by
  induction files with
  | nil => exact blames_pure _
  | cons file files ih =>
    have hrest := ih fun q hq => hfiles q (List.mem_cons_of_mem _ hq)
    obtain ⟨names, rfl⟩ := hfiles file (List.mem_cons_self ..)
    apply blames_bind (hkey names)
    intro key
    dsimp only
    split
    · exact hrest
    · refine blames_bind (blames_tolerate htrip ((Store.blames_delete _).imp fun _ => .inl))
        fun r => ?_
      cases r <;> exact blames_bind hrest fun _ => blames_pure _

/-- A sweep fails only if it trips, or where a location has no key. -/
theorem blames_sweep (entries : Entries) : Blames P (sweep l entries) := by
  have hroot : Blames P (l.key l.outputRoot) := by
    have hnil := hkey []
    rwa [Path.descend_nil] at hnil
  refine blames_bind_of (Q := fun r => ∀ files, r = .ok files →
      ∀ p ∈ files, ∃ names, p = l.outputRoot.descend names)
    (blames_tolerate htrip ((Store.blames_listFiles _).imp fun _ => .inl)) ?_ fun r hr => ?_
  · rintro h _ h' hrun files rfl
    exact Store.mem_listFiles (tolerate_ok hrun)
  cases r with
  | error e => exact blames_bind hroot fun _ => blames_pure _
  | ok files =>
    apply blames_bind (blames_sweepFiles htrip hkey entries (hr files rfl))
    intro swept
    dsimp only
    split
    · refine blames_bind ?_ fun _ => blames_pure _
      refine blames_bind_of (Q := fun r => ∀ dirs, r = .ok dirs →
          ∀ p ∈ dirs, ∃ names, p = l.outputRoot.descend names)
        (blames_tolerate htrip (Store.blames_removeEmptyDirectories _)) ?_ fun r hr => ?_
      · rintro h _ h' hrun dirs rfl
        exact Store.mem_removeEmptyDirectories (tolerate_ok hrun)
      cases r with
      | error e => exact blames_bind hroot fun _ => blames_pure _
      | ok dirs => exact blames_bind (blames_keys hkey (hr dirs rfl)) fun _ => blames_pure _
    · exact blames_pure _

end Failures

/-- Whatever goes on from the output directory has a key. -/
theorem Layout.Sound.blames_key {P : Failure → Prop} {l : Layout} (hl : l.Sound)
    (names : List Text) : Blames P (l.key (l.outputRoot.descend names)) := by
  apply blames_ofExcept
  intro e he
  obtain ⟨dirs, -, -, heq⟩ := hl.output
  rw [heq, Path.descend_descend, Path.key, Path.relativeTo?_descend] at he
  simp at he

end Provenance.Update
