/-
Requests over time.

A set of sources is asked for one thing after another, and between the requests the disk
changes under other hands. A run is told here by its moments, each a request and the disk
at that time. Requests count whether they succeed or fail, and nothing is said of how one
disk comes from the one before.

What a unit that is kept says of the past is proved once, for every run: it comes from a
request that read it, be it from the disk or from an editor (`kept_after`). And what a
request does not mention, it leaves as it is (`untouched_after`).
-/
import Provenance.Proofs.SourceSet

set_option autoImplicit false

namespace Provenance.SourceSet

open Action

/-! ## Requests -/

/-- What a set of sources can be asked for. -/
inductive Request where
  | list
  | tracks (f : TrackedFile)
  | add (f : TrackedFile)
  | remove (f : TrackedFile)
  | track (f : TrackedFile)
  | resolve (raw : Text)
  | unit (f : TrackedFile)
  | commit (f : TrackedFile) (text : Text)
  | reset

/-- The set after a request, however the request ends. -/
def Request.perform (r : Request) (d : Disk) (s : SourceSet) : SourceSet :=
  match r with
  | .list => ((listed d).runOn s).2
  | .tracks f => ((SourceSet.tracks d f).runOn s).2
  | .add f => ((SourceSet.add d f).runOn s).2
  | .remove f => ((SourceSet.remove d f).runOn s).2
  | .track f => ((trackIfPresent d f).runOn s).2
  | .resolve _ => s
  | .unit f => ((unitOf d f).runOn s).2
  | .commit f text => ((SourceSet.commit d f text).runOn s).2
  | .reset => (SourceSet.reset.runOn s).2

/-- What a set of sources replies. -/
inductive Reply where
  | files (fs : List TrackedFile)
  | truth (b : Bool)
  | file (f : Option TrackedFile)
  | unit (u : Option Outline.SourceUnit)
  | done
  deriving DecidableEq

/-- A request with its reply. -/
def Request.ask (r : Request) (d : Disk) : Action SourceSet Reply :=
  match r with
  | .list => do return .files (← listed d)
  | .tracks f => do return .truth (← SourceSet.tracks d f)
  | .add f => do
    SourceSet.add d f
    return .done
  | .remove f => do
    SourceSet.remove d f
    return .done
  | .track f => do return .truth (← trackIfPresent d f)
  | .resolve raw => do return .file ((← get).resolve? raw)
  | .unit f => do return .unit (← unitOf d f)
  | .commit f text => do return .unit (some (← SourceSet.commit d f text))
  | .reset => do
    SourceSet.reset
    return .done

/-- A request reads the file, or at least its size and its time. -/
def Request.Reads (f : TrackedFile) : Request → Prop
  | .unit g | .commit g _ => g = f
  | _ => False

/-- A request, and the disk at the time it is made. -/
structure Moment where
  disk : Disk
  request : Request

/-- The set after a run of requests. -/
def after (s : SourceSet) (ms : List Moment) : SourceSet :=
  ms.foldl (fun s m => m.request.perform m.disk s) s

@[simp] theorem after_nil (s : SourceSet) : s.after [] = s := rfl

@[simp] theorem after_concat (s : SourceSet) (ms : List Moment) (m : Moment) :
    s.after (ms ++ [m]) = m.request.perform m.disk (s.after ms) := by
  simp [after, List.foldl_append]

/-- What is left after a request is the same whether it replies or not. -/
theorem perform_eq (r : Request) (d : Disk) (s : SourceSet) :
    ((r.ask d).runOn s).2 = r.perform d s := by
  have hreply : ∀ {α : Type} (act : Action SourceSet α) (reply : α → Reply),
      ((do return reply (← act) : Action SourceSet Reply).runOn s).2 = (act.runOn s).2 := by
    intro α act reply
    rw [runOn_bind]
    rcases act.runOn s with ⟨_ | a, s'⟩ <;> rfl
  cases r with
  | resolve raw => rfl
  | _ => exact hreply _ _

/-! ## Where kept units come from -/

/-- What is kept afterwards was kept before, or is of some kind. -/
def KeptFrom (P : Text → KeptUnit → Prop) (s s' : SourceSet) : Prop :=
  ∀ key k, s'.kept? key = some k → s.kept? key = some k ∨ P key k

variable {d : Disk} {s : SourceSet} {f : TrackedFile} {r : Request} {P : Text → KeptUnit → Prop}
  {key : Text} {k : KeptUnit} {ms : List Moment}

theorem tracking_keptFrom (P : Text → KeptUnit → Prop) : Tracking (KeptFrom P) where
  stepwise := ⟨fun _ _ _ h => .inl h, fun h h' key k hk => (h' key k hk).elim (h key k) .inr⟩
  found _ _ _ _ _ h := .inl h
  joined _ _ _ _ h := .inl h

theorem keptFrom_forget (s : SourceSet) (path : Text) : KeptFrom P s (s.forget path) := by
  intro key k hk
  rw [kept?_forget] at hk
  split at hk
  · simp at hk
  · exact .inl hk

theorem keptFrom_keep (h : P f.path k) : KeptFrom P s (s.keep f.path k) := by
  intro key k' hk
  rw [kept?_keep] at hk
  split at hk
  · rename_i hkey
    obtain rfl := Option.some.inj hk
    exact .inr (hkey ▸ h)
  · exact .inl hk

/-- A request has a unit read for a key: from what is on the disk, with the size and the time of it,
or from the text of an editor. -/
def Request.Yields (r : Request) (d : Disk) (key : Text) (k : KeptUnit) : Prop :=
  match r with
  | .unit f => f.path = key ∧ ∃ x e content, d.stat f.location = .ok (x, e)
      ∧ d.read f.location = .ok content ∧ k.size = Int.ofNat e.size ∧ k.time = e.time
      ∧ Outline.parseUnit key (textOf content) = .ok k.unit
  | .commit f text => f.path = key ∧ Outline.parseUnit key text.unifyBreaks = .ok k.unit
  | _ => False

/-- A unit that is kept after a request was kept before it, or the request had it read. -/
theorem keptFrom_perform (r : Request) (d : Disk) (s : SourceSet) :
    KeptFrom (r.Yields d) s (r.perform d s) := by
  have hR := tracking_keptFrom (r.Yields d)
  cases r with
  | list => exact hR.listed d s
  | tracks f => exact hR.tracks d f s
  | add f => exact hR.add d f s
  | remove f => exact hR.remove (fun s => keptFrom_forget s f.path) s
  | track f => exact hR.trackIfPresent d f s
  | resolve raw => exact hR.stepwise.refl s
  | unit f =>
    refine hR.unitOf (fun s => keptFrom_forget s f.path) (fun s x e content unit hstat hread hunit => ?_) s
    exact keptFrom_keep ⟨rfl, x, e, content, hstat, hread, rfl, rfl, hunit⟩
  | commit f text => exact hR.commit (fun s _ _ _ hunit => keptFrom_keep ⟨rfl, hunit⟩) s
  | reset => exact fun key k hk => nomatch hk

/-- Each unit that is kept after a run was read for a request of the run. -/
theorem kept_after {root : Path} {rules : SourceSettings}
    (h : ((fresh root rules).after ms).kept? key = some k) :
    ∃ m ∈ ms, m.request.Yields m.disk key k := by
  induction ms using List.reverseRecOn with
  | nil => exact nomatch h
  | append_singleton ms m ih =>
    rw [after_concat] at h
    rcases keptFrom_perform m.request m.disk _ key k h with h | h
    · obtain ⟨m', hm', hyields⟩ := ih h
      exact ⟨m', List.mem_append_left _ hm', hyields⟩
    · exact ⟨m, by simp, h⟩

/-! ## What a request does not mention -/

/-- A key is tracked. -/
def Tracked (s : SourceSet) (key : Text) : Prop := ∃ keys, s.files = some keys ∧ key ∈ keys

/-- A key stays tracked, and what is kept for it stays the same. -/
structure Untouched (key : Text) (s s' : SourceSet) : Prop where
  tracked : s.Tracked key → s'.Tracked key
  kept : s'.kept? key = s.kept? key

theorem tracking_untouched (key : Text) : Tracking (Untouched key) where
  stepwise := ⟨fun _ => ⟨id, rfl⟩, fun h h' => ⟨h'.tracked ∘ h.tracked, h'.kept.trans h.kept⟩⟩
  found s keys hnone := by
    refine ⟨fun ⟨known, hknown, _⟩ => ?_, rfl⟩
    rw [hnone] at hknown
    exact nomatch hknown
  joined s new := by
    refine ⟨fun ⟨known, hknown, hkey⟩ => ?_, rfl⟩
    exact ⟨known ++ [new], by simp [hknown], List.mem_append_left _ hkey⟩

/-- A request that neither reads a key, nor takes it off, nor has all files forgotten. -/
def Request.Leaves (r : Request) (key : Text) : Prop :=
  match r with
  | .remove f | .unit f | .commit f _ => f.path ≠ key
  | .reset => False
  | _ => True

theorem untouched_forget {path : Text} (h : path ≠ key) (s : SourceSet) :
    Untouched key s (s.forget path) :=
  ⟨id, (kept?_forget s path key).trans (if_neg h.symm)⟩

theorem untouched_keep {path : Text} (h : path ≠ key) (s : SourceSet) (k : KeptUnit) :
    Untouched key s (s.keep path k) :=
  ⟨id, (kept?_keep s path key k).trans (if_neg h.symm)⟩

theorem untouched_remove {path : Text} (h : path ≠ key) (s : SourceSet) :
    Untouched key s { s.forget path with files := s.files.map fun keys => keys.filter (· ≠ path) } := by
  refine ⟨?_, (untouched_forget h s).kept⟩
  rintro ⟨keys, hkeys, hkey⟩
  exact ⟨keys.filter (· ≠ path), by simp [hkeys], List.mem_filter.mpr ⟨hkey, by simpa using h.symm⟩⟩

theorem untouched_perform (h : r.Leaves key) (d : Disk) (s : SourceSet) :
    Untouched key s (r.perform d s) := by
  have hR := tracking_untouched key
  cases r with
  | list => exact hR.listed d s
  | tracks f => exact hR.tracks d f s
  | add f => exact hR.add d f s
  | remove f => exact hR.remove (untouched_remove h) s
  | track f => exact hR.trackIfPresent d f s
  | resolve raw => exact hR.stepwise.refl s
  | unit f =>
    exact hR.unitOf (untouched_forget h) (fun s _ _ _ _ _ _ _ => untouched_keep h s _) s
  | commit f text => exact hR.commit (fun s _ _ _ _ => untouched_keep h s _) s
  | reset => exact h.elim

/-- A run of requests that leave a key alone does not touch it. -/
theorem untouched_after (h : ∀ m ∈ ms, m.request.Leaves key) (s : SourceSet) :
    Untouched key s (s.after ms) := by
  induction ms using List.reverseRecOn with
  | nil => exact ⟨id, rfl⟩
  | append_singleton ms m ih =>
    rw [after_concat]
    have hbefore := ih fun m' hm' => h m' (List.mem_append_left _ hm')
    have hlast := untouched_perform (h m (by simp)) m.disk (s.after ms)
    exact (tracking_untouched key).stepwise.trans hbefore hlast

/-! ## A project with one source -/

/-- A disk with the only source of a project, of a given text and time. -/
def onlyDisk (text : Text) (time : Int) : Disk :=
  ⟨.ofEntries [(["p".toList], .directory 0), (["p".toList, "src".toList], .directory 0),
    (["p".toList, "src".toList, "A.kt".toList], .file (Utf8.encode text) time)], [], false⟩

/-- The directory of the project. -/
def onlyRoot : Path := ⟨.root, ["p".toList]⟩

/-- The rules of the project. -/
def onlyRules : SourceSettings := ⟨["src".toList], [".kt".toList], []⟩

/-- The source of the project. -/
def onlyFile : TrackedFile := ⟨"src/A.kt".toList, onlyRoot.join (.ofText "src/A.kt".toList)⟩

end Provenance.SourceSet
