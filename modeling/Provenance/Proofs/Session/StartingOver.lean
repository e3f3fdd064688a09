/-
Starting over.

Once a session has been disposed of, nothing tells it from one that has just been set up with
the same settings on the same host: whatever is asked of both from then on, and whatever
happens to their hosts, they give the same answers, fail in the same way, and leave the same on
the disk. What does tell them apart is how they count, and with that the names of cycles, and
what was last reported before.

The new session makes the directory of the journal and looks for the root of the project again,
which the old one does not. So the directory has to be there, and the root has to be where it
was. And the name of a cycle is written down: if a line of the journal gets into a file that is
read, be it that a source leads to the journal, the sessions read different texts.
-/
import Provenance.Proofs.Session.Recounting
import Provenance.Proofs.SourceSet.Requests

set_option autoImplicit false

namespace Provenance

open Action Host

/-! ## Directories that are there -/

/-- A directory that is there cannot be made, but will do. -/
theorem Host.makeDirectories_idle {h : Host} {p : Path} (hp : p.isAbsolute = true)
    (hthere : h.disk.hasDirectory p = .ok true) : (makeDirectories p).runOn h = (.ok (), h) := by
  obtain ⟨l, e, hstat, -⟩ := Disk.holds_true_iff.mp hthere
  have hplace := Disk.stat_ok_iff.mp hstat
  have hmake : h.disk.makeDirectory p h.clock.now = .error .alreadyThere := by
    unfold Disk.makeDirectory
    rcases hp' : h.disk.place false p with er | ⟨l', e'⟩ | ⟨dir, n⟩
    · rw [Disk.place_follow_error hp hp'] at hplace
      exact nomatch hplace
    · rfl
    · rw [Disk.place_follow_absent hp hp'] at hplace
      exact nomatch hplace
  unfold makeDirectories makeDirectoriesWithin
  rw [runOn_bind_ok (runOn_get h), hmake]
  dsimp only
  have hask : (ask p (·.hasDirectory p)).runOn h = (.ok true, h) := by
    rw [runOn_ask, hthere]
    rfl
  exact runOn_bind_ok hask

namespace Session

/-! ## Moves -/

/-- What can be asked of a session, or happen to its host. -/
inductive Move where
  | call (c : Call)
  | lookup (raw : Text)
  | request (r : SourceSet.Request)
  | status
  | dispose
  | meanwhile (change : Host → Host)

/-- What comes of a move. -/
inductive Answer where
  | report (r : Except Failure Report)
  | units (r : Except Failure (List Outline.SourceUnit))
  | reply (r : Except Failure SourceSet.Reply)
  | status (st : Status)
  | done

/-- The session after it has been disposed of. -/
def disposed (s : Session) : Session := (dispose.runOn s).2

/-- The answer to a move, and the session after it. -/
def Move.perform (s : Session) : Move → Answer × Session
  | .call c => (.report (c.run.runOn s).1, (c.run.runOn s).2)
  | .lookup raw => (.units ((Session.lookup raw).runOn s).1, ((Session.lookup raw).runOn s).2)
  | .request r => (.reply ((onSources r.ask).runOn s).1, ((onSources r.ask).runOn s).2)
  | .status => (.status s.project.status, s)
  | .dispose => (.done, s.disposed)
  | .meanwhile change => (.done, { s with host := change s.host })

/-- The answers to some moves, one after the other, and the session after them. -/
def play (s : Session) : List Move → List Answer × Session
  | [] => ([], s)
  | m :: ms => ((m.perform s).1 :: ((m.perform s).2.play ms).1, ((m.perform s).2.play ms).2)

/-- A move reads a file as it is on a disk. -/
def Move.Reads (s : Session) (f : TrackedFile) (d : Disk) : Move → Prop
  | .call c => c.Reads s f d
  | .lookup raw => s.Looks raw f ∧ d = s.host.disk
  | .request r => r.Reads f ∧ d = s.host.disk
  | _ => False

/-- One of some moves, made one after the other, reads a file as it is on a disk. -/
def Reads (s : Session) (f : TrackedFile) (d : Disk) : List Move → Prop
  | [] => False
  | m :: ms => m.Reads s f d ∨ (m.perform s).2.Reads f d ms

/-- What happens to a host does not depend on the names of the cycles that are written down on it. -/
def Blind (change : Host → Host) : Prop := ∀ h h', h.Renamed h' → (change h).Renamed (change h')

/-- Whatever happens to a host may put any other in its place. -/
theorem blind_const (h : Host) : Blind fun _ => h := fun _ _ _ => .refl h

/-- The host after a change of its disk by other hands, if the change can be made. -/
def edited (change : Disk → Except Errno Disk) (h : Host) : Host :=
  match change h.disk with
  | .ok d => { h with disk := d }
  | .error _ => h

theorem blind_edited {change : Disk → Except Errno Disk}
    (hchange : ∀ d d', d.Renamed d' → Matched Disk.Renamed (change d) (change d')) :
    Blind (edited change) := by
  intro h h' hh
  have hmatch := hchange _ _ hh.disk
  unfold edited
  generalize change h.disk = x at hmatch ⊢
  generalize change h'.disk = y at hmatch ⊢
  cases hmatch with
  | error e => exact hh
  | ok hd => exact ⟨hd, hh.clock, hh.faults⟩

/-- What is done to a disk by hand does not depend on the names of cycles. -/
theorem blind_edits (p target : Path) (content : Bytes) (now : Int) :
    Blind (edited (·.write p content now)) ∧ Blind (edited (·.makeDirectory p now))
      ∧ Blind (edited (·.link p target now)) ∧ Blind (edited (·.makeSpecial p now))
      ∧ Blind (edited (·.remove p now)) ∧ Blind (edited (·.clear p now))
      ∧ Blind (edited (·.setTime p now)) :=
  ⟨blind_edited fun _ _ hd => hd.write p content now, blind_edited fun _ _ hd => hd.make p _ now,
    blind_edited fun _ _ hd => hd.link p target now, blind_edited fun _ _ hd => hd.make p _ now,
    blind_edited fun _ _ hd => hd.remove p now, blind_edited fun _ _ hd => hd.clear p now,
    blind_edited fun _ _ hd => hd.setTime p now⟩

/-- Two answers that are the same but for the name of a cycle, for the generation, and for what was last
reported, where the second session has not reported anything yet. -/
inductive Answer.Same : Answer → Answer → Prop
  | report {r r' : Except Failure Report}
    (h : Matched (fun a b => ∃ id, b = { a with cycleId := id }) r r') :
    Answer.Same (.report r) (.report r')
  | units (r : Except Failure (List Outline.SourceUnit)) : Answer.Same (.units r) (.units r)
  | reply (r : Except Failure SourceSet.Reply) : Answer.Same (.reply r) (.reply r)
  | status {st st' : Status} (artifacts : st'.artifactCount = st.artifactCount)
    (sources : st'.sourceCount = st.sourceCount) (last : st'.last = st.last ∨ st'.last = none) :
    Answer.Same (.status st) (.status st')
  | done : Answer.Same .done .done

variable {s s' : Session} {m : Move} {ms : List Move}

/-! ## Side by side -/

/-- One move: the answers are the same, and the sessions go on side by side. -/
theorem Move.abreast (hs : recounting.Sessions s s')
    (hblind : ∀ change, m = .meanwhile change → Blind change)
    (hread : ∀ f d, m.Reads s f d → recounting.readable d f) :
    (m.perform s).1.Same (m.perform s').1 ∧ recounting.Sessions (m.perform s).2 (m.perform s').2 := by
  cases m with
  | call c =>
    obtain ⟨hmatch, hafter⟩ := Call.abreast_run lawful_recounting hs hread
    refine ⟨.report (hmatch.imp ?_), hafter⟩
    rintro a b ⟨n, n', -, -, rfl⟩
    exact ⟨_, rfl⟩
  | lookup raw =>
    obtain ⟨hmatch, hafter⟩ := abreast_lookup lawful_recounting hs raw fun f hf => hread f _ ⟨hf, rfl⟩
    refine ⟨?_, hafter⟩
    show Answer.Same (.units _) (.units _)
    rw [hmatch.eq]
    exact .units _
  | request r =>
    have hdisk : s.host.disk.Renamed s'.host.disk := Host.Renamed.disk hs.hosts
    obtain ⟨hmatch, hafter⟩ := abreast_onSources hs
      (SourceSet.lockstep_ask (SourceSet.sameView_of_renamed hdisk) r fun f hf =>
        stat_eq_of_renamed hdisk (hread f _ ⟨hf, rfl⟩))
    refine ⟨?_, hafter⟩
    show Answer.Same (.reply _) (.reply _)
    rw [hmatch.eq]
    exact .reply _
  | status =>
    refine ⟨.status ?_ ?_ hs.last, hs⟩
    · exact congrArg List.length hs.entries
    · exact congrArg Entries.sourceCount hs.entries
  | dispose =>
    -- both forget all that they have recorded, and all that they know of their files
    have hsources := (SourceSet.lockstep_reset _ _ hs.sources).2
    exact ⟨.done, { hs with sources := hsources, entries := rfl, generation := trivial }⟩
  | meanwhile change => exact ⟨.done, { hs with hosts := hblind change rfl _ _ hs.hosts }⟩

/-- Any number of moves: all answers are the same, and the sessions are side by side after them. -/
theorem abreast_play (hs : recounting.Sessions s s')
    (hblind : ∀ change, .meanwhile change ∈ ms → Blind change)
    (hread : ∀ f d, s.Reads f d ms → recounting.readable d f) :
    List.Forall₂ Answer.Same (s.play ms).1 (s'.play ms).1
      ∧ recounting.Sessions (s.play ms).2 (s'.play ms).2 := by
  induction ms generalizing s s' with
  | nil => exact ⟨.nil, hs⟩
  | cons m ms ih =>
    obtain ⟨hanswer, hafter⟩ := Move.abreast hs
      (fun change heq => hblind change (heq ▸ List.mem_cons_self ..)) fun f d hf => hread f d (.inl hf)
    obtain ⟨hanswers, hend⟩ := ih hafter
      (fun change hmem => hblind change (List.mem_cons_of_mem _ hmem)) fun f d hf => hread f d (.inr hf)
    exact ⟨.cons hanswer hanswers, hend⟩

/-! ## Starting over -/

/-- A session that has been disposed of has all in common with a new one that it has not forgotten. -/
theorem sessions_disposed (hs : Reachable s) : recounting.Sessions s.disposed
    ⟨s.host, newProject s.project.settings s.project.sources.root⟩ where
  hosts := Host.Renamed.refl s.host
  sources := ⟨rfl, hs.setup.1.symm, rfl, .none⟩
  settings := rfl
  journal := hs.setup.2.symm
  entries := rfl
  generation := trivial
  cycles := trivial
  last := .inr rfl
  layout := hs.sound.layout
  absolute p hp := (hs.sound.journal p hp).isAbsolute

/-- Where the directory of the journal is there, setting up a new session succeeds and changes nothing. -/
theorem setUp_idle {root : Path} (hs : Reachable s)
    (hroot : s.host.disk.absolute s.project.settings.projectRoot = .ok root)
    (hdir : s.project.settings.audit = true →
      s.host.disk.hasDirectory s.project.settings.dataDir = .ok true) :
    (setUp s.project.settings).runOn s.host = (.ok (newProject s.project.settings root), s.host) := by
  rw [setUp_eq hroot]
  split
  · rename_i haudit
    have hparent : s.project.settings.auditLog.parent = s.project.settings.dataDir :=
      Path.parent_child _ _
    have hjournal : s.project.journal = some s.project.settings.auditLog := by
      rw [hs.setup.2, if_pos haudit]
    have hcreate : (Journal.create s.project.settings.auditLog).runOn s.host = (.ok (), s.host) := by
      rw [Journal.create]
      exact makeDirectories_idle (hs.sound.journal _ hjournal).isAbsolute (hparent.symm ▸ hdir haudit)
    exact runOn_bind_ok hcreate
  · rfl

/-- To dispose of a session is to start over: all answers from then on are those that a new session
gives, and the same is left on the disk. -/
theorem starts_over (hs : Reachable s)
    (hroot : s.host.disk.absolute s.project.settings.projectRoot = .ok s.project.sources.root)
    (hdir : s.project.settings.audit = true →
      s.host.disk.hasDirectory s.project.settings.dataDir = .ok true) :
    ∃ p, (setUp s.project.settings).runOn s.host = (.ok p, s.host)
      ∧ ∀ ms : List Move, (∀ change, .meanwhile change ∈ ms → Blind change)
        → (∀ f d, s.disposed.Reads f d ms → ¬HoldsEvent d f)
        → List.Forall₂ Answer.Same (s.disposed.play ms).1 (Session.play ⟨s.host, p⟩ ms).1
          ∧ (s.disposed.play ms).2.host.Renamed (Session.play ⟨s.host, p⟩ ms).2.host := by
  refine ⟨_, setUp_idle hs hroot hdir, fun ms hblind hread => ?_⟩
  obtain ⟨hanswers, hend⟩ := abreast_play (sessions_disposed hs) hblind hread
  exact ⟨hanswers, hend.hosts⟩

/-- All that a lookup reads is empty. -/
def LooksAtNothing (s : Session) (raw : Text) : Prop :=
  (Path.normalizeKey? s.project.settings.projectRoot raw).all (fun key =>
    (s.project.ledger.sourcesOf key).all fun p => (s.project.sources.resolve? p.text).all fun f =>
      (s.host.disk.read f.location).toOption.all List.isEmpty) = true

instance (s : Session) (raw : Text) : Decidable (s.LooksAtNothing raw) :=
  inferInstanceAs (Decidable (_ = _))

theorem LooksAtNothing.not_holdsEvent {raw : Text} {f : TrackedFile} (h : s.LooksAtNothing raw)
    (hlooks : s.Looks raw f) : ¬HoldsEvent s.host.disk f := by
  rintro ⟨content, hread, hholds⟩
  obtain ⟨key, hkey, p, hp, hf⟩ := hlooks
  rw [LooksAtNothing, hkey, Option.all_some] at h
  have hcontent := List.all_eq_true.mp h p hp
  rw [hf, Option.all_some, hread] at hcontent
  rw [List.isEmpty_iff.mp hcontent] at hholds
  exact Journal.not_holds_nil hholds

/-- The key of the artifact of the small project. -/
def smallKey : Text := "bin/kotlin/A.class".toList

/-- A build, a question, and another one when the source has been removed. -/
def smallMoves : List Move :=
  [.call (.rebuild smallBuild []), .lookup smallKey, .meanwhile (edited (·.unlink smallSource 9)),
    .lookup smallKey, .request .list, .status]

/-- Nothing that these moves read holds an event, if what the two questions read is empty. -/
theorem not_holdsEvent_of_smallMoves {f : TrackedFile} {d : Disk}
    (hfirst : (s.play (smallMoves.take 1)).2.LooksAtNothing smallKey)
    (hsecond : (s.play (smallMoves.take 3)).2.LooksAtNothing smallKey)
    (hreads : s.Reads f d smallMoves) : ¬HoldsEvent d f := by
  rcases hreads with
    ⟨keys, s₁, -, hnone⟩ | ⟨hlooks, rfl⟩ | hnone | ⟨hlooks, rfl⟩ | ⟨hnone, -⟩ | hnone | hnone
  · exact hnone.elim
  · exact hfirst.not_holdsEvent hlooks
  · exact hnone.elim
  · exact hsecond.not_holdsEvent hlooks
  · exact hnone.elim
  · exact hnone.elim
  · exact hnone.elim

/-- A session that has published once, and is disposed of. A new one calls its first cycle by another
name, and all answers are the same. -/
theorem starts_over_small : ∃ s p, Reachable s ∧ s.project.ledger.entries ≠ [] ∧ s.project.cycles = 1
    ∧ (setUp s.project.settings).runOn s.host = (.ok p, s.host)
    ∧ List.Forall₂ Answer.Same (s.disposed.play smallMoves).1 (Session.play ⟨s.host, p⟩ smallMoves).1
    ∧ (s.disposed.play smallMoves).2.host.Renamed (Session.play ⟨s.host, p⟩ smallMoves).2.host := by
  have hrun : ((small? []).map fun s₀ => decide (
      let s := (Act.call (.rebuild smallBuild [])).perform s₀
      s.project.ledger.entries ≠ [] ∧ s.project.cycles = 1
      ∧ s.host.disk.absolute s.project.settings.projectRoot = .ok s.project.sources.root
      ∧ s.host.disk.hasDirectory s.project.settings.dataDir = .ok true
      ∧ (s.disposed.play (smallMoves.take 1)).2.LooksAtNothing smallKey
      ∧ (s.disposed.play (smallMoves.take 3)).2.LooksAtNothing smallKey)) = some true := by
    decide +kernel
  obtain ⟨s₀, hs₀, h⟩ := Option.map_eq_some_iff.mp hrun
  obtain ⟨hentries, hcycles, hroot, hdir, hfirst, hsecond⟩ := of_decide_eq_true h
  have hreach : Reachable ((Act.call (.rebuild smallBuild [])).perform s₀) :=
    .after _ (reachable_small (by decide +kernel) (by decide +kernel) hs₀) trivial
  obtain ⟨p, hp, hplay⟩ := starts_over hreach hroot fun _ => hdir
  refine ⟨_, p, hreach, hentries, hcycles, hp, hplay smallMoves (fun change hmem => ?_)
    fun f d => not_holdsEvent_of_smallMoves hfirst hsecond⟩
  obtain rfl : change = edited (·.unlink smallSource 9) := by simpa [smallMoves] using hmem
  exact blind_edited fun d d' hd => hd.unlink smallSource 9

/-- A new session makes the directory of the journal if it is gone. One that has been disposed of
cannot write its cycles down there, and fails. -/
theorem not_starting_over_without_directory : ∃ s p h', Reachable s
    ∧ (setUp s.project.settings).runOn s.host = (.ok p, h')
    ∧ ¬List.Forall₂ Answer.Same (s.disposed.play [.call (.rebuild smallBuild [])]).1
      (Session.play ⟨h', p⟩ [.call (.rebuild smallBuild [])]).1 := by
  have hrun : ((small? []).map fun s₀ => decide (
      let s := (Act.meanwhile (idle (smallTree []))).perform s₀
      Ends ((Call.rebuild smallBuild []).run.runOn s.disposed) (fun _ _ => False) (fun _ _ => True)
      ∧ Ends ((setUp s.project.settings).runOn s.host)
        (fun p h' => Ends ((Call.rebuild smallBuild []).run.runOn ⟨h', p⟩) (fun _ _ => True)
          (fun _ _ => False)) (fun _ _ => False))) = some true := by
    decide +kernel
  obtain ⟨s₀, hs₀, h⟩ := Option.map_eq_some_iff.mp hrun
  obtain ⟨hfails, hreturns⟩ := of_decide_eq_true h
  have hreach : Reachable ((Act.meanwhile (idle (smallTree []))).perform s₀) :=
    .after _ (reachable_small (by decide +kernel) (by decide +kernel) hs₀)
      (legal_idle (by decide +kernel) (by decide +kernel))
  generalize (Act.meanwhile (idle (smallTree []))).perform s₀ = s at hreach hfails hreturns
  rcases hset : (setUp s.project.settings).runOn s.host with ⟨f | p, h'⟩
  all_goals rw [hset] at hreturns
  · exact hreturns.elim
  refine ⟨s, p, h', hreach, hset, fun hsame => ?_⟩
  cases hsame with
  | cons hanswer _ =>
    -- one of the calls has failed, and the other has returned
    rcases hr : (Call.rebuild smallBuild []).run.runOn s.disposed with ⟨f | r, t⟩
    all_goals rw [hr] at hfails
    swap
    · exact hfails.elim
    rw [ends_ok] at hreturns
    rcases hr' : (Call.rebuild smallBuild []).run.runOn ⟨h', p⟩ with ⟨f' | r', t'⟩
    all_goals rw [hr'] at hreturns
    · exact hreturns.elim
    simp only [Move.perform, hr, hr'] at hanswer
    cases hanswer with
    | report hmatch => exact nomatch hmatch

/-- The small project at another place, and a link to it where it was. -/
def movedTree : Tree :=
  .ofEntries [(["q".toList], .directory 0), (["q".toList, "src".toList], .directory 0),
    (["q".toList, "src".toList, "A.kt".toList], .file [] 0),
    (["q".toList, ".lightclass".toList], .directory 0), (["p".toList], .link ⟨.root, ["q".toList]⟩)]

/-- A new session finds the sources where the root of the project is now. One that has been disposed of
still has them where it was. -/
theorem not_starting_over_with_moved_root : ∃ s p, Reachable s
    ∧ s.host.disk.hasDirectory s.project.settings.dataDir = .ok true
    ∧ (setUp s.project.settings).runOn s.host = (.ok p, s.host)
    ∧ ¬List.Forall₂ Answer.Same (s.disposed.play [.request .list]).1
      (Session.play ⟨s.host, p⟩ [.request .list]).1 := by
  have hrun : ((small? []).map fun s₀ => decide (
      let s := (Act.meanwhile (idle movedTree)).perform s₀
      let s' : Session := ⟨s.host, newProject s.project.settings ⟨.root, ["q".toList]⟩⟩
      s.host.disk.hasDirectory s.project.settings.dataDir = .ok true
      ∧ s.host.disk.absolute s.project.settings.projectRoot = .ok ⟨.root, ["q".toList]⟩
      ∧ Ends ((onSources SourceSet.Request.list.ask).runOn s.disposed)
        (fun r _ => Ends ((onSources SourceSet.Request.list.ask).runOn s') (fun r' _ => r ≠ r')
          fun _ _ => False) (fun _ _ => False))) = some true := by
    decide +kernel
  obtain ⟨s₀, hs₀, h⟩ := Option.map_eq_some_iff.mp hrun
  obtain ⟨hdir, hroot, hdiffer⟩ := of_decide_eq_true h
  have hreach : Reachable ((Act.meanwhile (idle movedTree)).perform s₀) :=
    .after _ (reachable_small (by decide +kernel) (by decide +kernel) hs₀)
      (legal_idle (by decide +kernel) (by decide +kernel))
  generalize (Act.meanwhile (idle movedTree)).perform s₀ = s at hreach hdir hroot hdiffer
  refine ⟨s, _, hreach, hdir, setUp_idle hreach hroot fun _ => hdir, fun hsame => ?_⟩
  cases hsame with
  | cons hanswer _ =>
    simp only [Move.perform] at hanswer
    generalize (onSources SourceSet.Request.list.ask).runOn s.disposed = x at hdiffer hanswer
    generalize (onSources SourceSet.Request.list.ask).runOn _ = y at hdiffer hanswer
    obtain ⟨f | r, t⟩ := x
    · exact hdiffer
    obtain ⟨f' | r', t'⟩ := y
    · exact hdiffer
    cases hanswer
    exact hdiffer rfl

end Session

end Provenance
