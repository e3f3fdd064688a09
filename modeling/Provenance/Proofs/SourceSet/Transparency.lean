/-
Kept units and files.

Keeping units is to save work and nothing else: a request for a unit should be answered as
if none were kept. A unit is handed back if the file has the size and the time that it had
when it was read, so what is needed of the disk is that it never shows two contents of one
file with one size and one time. Whatever else happens between the requests, files being
changed, taken away and put back, tracked and no longer tracked, does no harm.

An answer is not always to be had. A missing file has no unit, but a file may be missing in
more than one way: a request for a key below a regular file, or with a name that no file can
have, fails. `unitOf_transparent` gives the exact condition.
-/
import Provenance.Proofs.SourceSet.Requests

set_option autoImplicit false

namespace Provenance.SourceSet

open Action

variable {root : Path} {rules : SourceSettings} {ms : List Moment} {d : Disk} {s : SourceSet}
  {f : TrackedFile} {k : KeptUnit} {x : Location} {e : Entry} {keys : List Text}

/-! ## Steady files -/

/-- What is at two places, each on a disk of its own, has one content if it has one size and one
time. -/
def SameStamps (d : Disk) (p : Path) (d' : Disk) (p' : Path) : Prop :=
  ∀ x e x' e', d.stat p = .ok (x, e) → d'.stat p' = .ok (x', e') → e.size = e'.size →
    e.time = e'.time → contentOf e = contentOf e'

/-- No unit was read for the key of a file from what looks like the file as it is now, by its size and
its time, and is not. -/
def Steady (ms : List Moment) (d : Disk) (f : TrackedFile) : Prop :=
  ∀ m ∈ ms, ∀ g, m.request = .unit g → g.path = f.path →
    SameStamps m.disk g.location d f.location

/-- A file is steady if units are asked for at the places of their keys, and if the disk never shows
two contents of one file with one size and one time. -/
theorem steady_of_places (hf : f.location = root.join (.ofText f.path))
    (hplaces : ∀ m ∈ ms, ∀ g, m.request = .unit g → g.location = root.join (.ofText g.path))
    (hstamps : ∀ m ∈ ms, ∀ p, SameStamps m.disk p d p) : Steady ms d f := by
  intro m hm g hg hpath
  have hplace : g.location = f.location := by rw [hplaces m hm g hg, hpath, hf]
  rw [hplace]
  exact hstamps m hm f.location

/-! ## Units -/

/-- What a tracked file is read as, and why it cannot be. -/
def readUnit (d : Disk) (f : TrackedFile) : Except Cause (Option Outline.SourceUnit) :=
  match d.stat f.location with
  | .ok (_, e) => (freshUnit f e).map some
  | .error .notFound => .ok none
  | .error er => .error (.io (.ofErrno er f.location))

/-- A request for the unit of a tracked file is answered as the file is read, as long as a unit that
fits is what would be read. -/
theorem unitOf_eq_readUnit (hkeys : s.keysOn d = .ok keys)
    (hfits : ∀ x e k, d.stat f.location = .ok (x, e) → s.fitting? f e = some k →
      freshUnit f e = .ok k.unit) :
    ((unitOf d f).runOn s).1
      = if f.path ∈ keys then (readUnit d f).mapError fun c => ⟨c, []⟩ else .ok none := by
  have hrun : (unitOf d f).runOn s = (unitOf d f).runOn (s.knowing keys) := runOn_tracks_bind hkeys
  rw [hrun]
  by_cases hf : f.path ∈ keys
  swap
  · rw [unitOf_untracked rfl (by simpa using hf), if_neg hf]
  rw [if_pos hf]
  have hf' : keys.contains f.path = true := List.contains_iff_mem.mpr hf
  rcases hstat : d.stat f.location with er | ⟨x, e⟩
  · rw [unitOf_missing rfl hf' hstat, readUnit, hstat]
    cases er <;> rfl
  · rw [unitOf_there rfl hf' hstat, readUnit, hstat]
    dsimp only
    rcases hfit : s.fitting? f e with _ | k
    · rw [show (s.knowing keys).fitting? f e = none from hfit]
      cases freshUnit f e <;> rfl
    · rw [show (s.knowing keys).fitting? f e = some k from hfit, hfits x e k hstat hfit]
      rfl

/-- A unit that fits a steady file is what would be read. -/
theorem Steady.freshUnit (hsteady : Steady ms d f)
    (hcommit : ∀ m ∈ ms, ∀ g text, m.request ≠ .commit g text)
    (hstat : d.stat f.location = .ok (x, e))
    (hfit : ((fresh root rules).after ms).fitting? f e = some k) :
    SourceSet.freshUnit f e = .ok k.unit := by
  obtain ⟨hkept, hk⟩ := Option.filter_eq_some_iff.mp hfit
  obtain ⟨hsize, htime⟩ := of_decide_eq_true hk
  obtain ⟨m, hm, hyields⟩ := kept_after hkept
  rcases hr : m.request with _ | _ | _ | _ | _ | _ | g | ⟨g, text⟩ | _ <;> rw [hr] at hyields
  case unit =>
    obtain ⟨hpath, x', e', content, hstat', hread, hsize', htime', hunit⟩ := hyields
    have hcontent : contentOf e' = contentOf e :=
      hsteady m hm g hr hpath x' e' x e hstat' hstat (Int.ofNat.inj (hsize'.symm.trans hsize))
        (htime'.symm.trans htime)
    rw [SourceSet.freshUnit, ← hcontent, ← read_of_stat hstat', hread]
    dsimp only
    rw [hunit]
  case commit => exact (hcommit m hm g text hr).elim
  all_goals exact hyields.elim

/-! ## Answers -/

/-- The unit of what is on the disk, if it can be read. -/
def unitOn (d : Disk) (f : TrackedFile) : Option Outline.SourceUnit :=
  match d.stat f.location with
  | .ok (_, e) => (freshUnit f e).toOption
  | .error _ => none

/-- What is at the place of a file can be read, or nothing is there and the disk says just that. -/
def Legible (d : Disk) (f : TrackedFile) : Prop :=
  match d.stat f.location with
  | .ok (_, e) => e.isDirectory = false
  | .error er => er = .notFound

/-- A file is read as what is on the disk exactly if it is legible. -/
theorem readUnit_eq_iff : readUnit d f = .ok (unitOn d f) ↔ Legible d f := by
  unfold readUnit unitOn Legible
  rcases d.stat f.location with er | ⟨x, e⟩
  · cases er <;> simp
  · dsimp only
    rw [← freshUnit_ok_iff (f := f)]
    cases freshUnit f e <;> simp [Except.map, Except.toOption]

/-- Whatever was asked for before, a request for the unit of a steady file is answered as if no unit were
kept; and the answer is none for a file that is not tracked, and for a tracked one the unit of what is
on the disk or none if nothing is, exactly if the files to track can be found and what is at the place
of a tracked one is legible. -/
theorem unitOf_transparent (hcommit : ∀ m ∈ ms, ∀ g text, m.request ≠ .commit g text)
    (hsteady : Steady ms d f) :
    let s := (fresh root rules).after ms
    ((unitOf d f).runOn s).1 = ((unitOf d f).runOn { s with units := [] }).1
      ∧ ((∃ keys, s.keysOn d = .ok keys
          ∧ ((unitOf d f).runOn s).1 = .ok (if f.path ∈ keys then unitOn d f else none))
        ↔ ∃ keys, s.keysOn d = .ok keys ∧ (f.path ∈ keys → Legible d f)) := by
  intro s
  rcases hkeys : s.keysOn d with c | keys
  · rw [unitOf_of_error hkeys, unitOf_of_error (s := { s with units := [] }) hkeys]
    simp
  have hanswer := unitOf_eq_readUnit (f := f) hkeys fun x e k hstat hfit =>
    hsteady.freshUnit hcommit hstat hfit
  refine ⟨?_, ?_⟩
  · rw [hanswer, unitOf_eq_readUnit (s := { s with units := [] }) hkeys fun x e k _ hfit =>
      nomatch hfit]
  · rw [hanswer]
    by_cases hf : f.path ∈ keys
    · have hread : ((readUnit d f).mapError fun c => (⟨c, []⟩ : Failure)) = .ok (unitOn d f)
          ↔ Legible d f := by
        rw [← readUnit_eq_iff]
        cases readUnit d f <;> simp [Except.mapError]
      simp [hf, hread]
    · simp [hf]

/-- A source is read, taken off, tracked again, and has another text by then. -/
theorem unitOf_transparent_small :
    let d := onlyDisk "class A\n".toList 1
    let d' := onlyDisk "class Other\n".toList 2
    let s := (fresh onlyRoot onlyRules).after
      [⟨d, .unit onlyFile⟩, ⟨d, .remove onlyFile⟩, ⟨d', .track onlyFile⟩]
    ((unitOf d' onlyFile).runOn s).1 = ((unitOf d' onlyFile).runOn { s with units := [] }).1
      ∧ ((∃ keys, s.keysOn d' = .ok keys
          ∧ ((unitOf d' onlyFile).runOn s).1
            = .ok (if onlyFile.path ∈ keys then unitOn d' onlyFile else none))
        ↔ ∃ keys, s.keysOn d' = .ok keys ∧ (onlyFile.path ∈ keys → Legible d' onlyFile)) := by
  intro d d'
  have hstat : d.stat onlyFile.location = .ok (["p".toList, "src".toList, "A.kt".toList],
    .file (Utf8.encode "class A\n".toList) 1) := by decide +kernel
  have hstat' : d'.stat onlyFile.location = .ok (["p".toList, "src".toList, "A.kt".toList],
    .file (Utf8.encode "class Other\n".toList) 2) := by decide +kernel
  refine unitOf_transparent (by simp) ?_
  -- the one unit that is read is read from a file of another size
  intro m hm g hg _ x e x' e' he he' hsize _
  simp only [List.mem_cons, List.not_mem_nil, or_false] at hm
  obtain rfl | rfl | rfl := hm
  case inl =>
    obtain rfl := Request.unit.inj hg
    obtain ⟨-, rfl⟩ := Prod.mk.inj (Except.ok.inj (hstat.symm.trans he))
    obtain ⟨-, rfl⟩ := Prod.mk.inj (Except.ok.inj (hstat'.symm.trans he'))
    exact absurd hsize (by decide +kernel)
  all_goals exact nomatch hg

/-- A key with a name that no file can have. -/
def longKey : Text := "src/".toList ++ List.replicate 300 'n' ++ ".kt".toList

/-- A key is tracked although its name is too long for a file. Nothing is there, and a request for its
unit fails. -/
theorem not_answered_too_long :
    let d := onlyDisk "class A\n".toList 1
    let g : TrackedFile := ⟨longKey, onlyRoot.join (.ofText longKey)⟩
    let s := (fresh onlyRoot onlyRules).after [⟨d, .add g⟩]
    ((tracks d g).runOn s).1 = .ok true
      ∧ d.tree.find? g.location.names = none
      ∧ ((unitOf d g).runOn s).1 ≠ .ok none := by
  decide +kernel

end Provenance.SourceSet
