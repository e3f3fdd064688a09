/-
Disks that differ in the names of cycles.

A line of the journal has the name of a cycle in it, and nothing else on a disk has. So two
disks whose journals were kept by sessions that count their cycles differently have the same
entries with the same times in the same places, and only the content of a file may differ,
in the lines of some events and there in the name of the cycle. Where such a file is does not
matter here: it may have been moved, copied or linked to.

All calls take such disks to such disks, or fail on both in the same way. A file that holds no
line of an event is the same on both.
-/
import Provenance.Journal
import Provenance.Proofs.Disk.Skeleton

set_option autoImplicit false

namespace Provenance

/-! ## Contents -/

namespace Journal

/-- What is written down of an event: its line, with the break. -/
def written (e : Event) : Bytes := Utf8.encode (e.line ++ ['\n'])

/-- The second content is the first with other names for the cycles of some events that are written
down in it. -/
inductive Renamed : Bytes → Bytes → Prop
  | same (content : Bytes) : Renamed content content
  | event (e : Event) (id id' : Text) :
    Renamed (written { e with cycleId := id }) (written { e with cycleId := id' })
  | append {a a' b b' : Bytes} (ha : Renamed a a') (hb : Renamed b b') : Renamed (a ++ b) (a' ++ b')

/-- An event is written down in the content. -/
def Holds (content : Bytes) : Prop := ∃ before e after, content = before ++ written e ++ after

theorem holds_written (e : Event) : Holds (written e) := ⟨[], e, [], by simp⟩

theorem Holds.append_right {a : Bytes} (h : Holds a) (b : Bytes) : Holds (a ++ b) := by
  obtain ⟨before, e, after, rfl⟩ := h
  exact ⟨before, e, after ++ b, by simp⟩

theorem Holds.append_left {b : Bytes} (h : Holds b) (a : Bytes) : Holds (a ++ b) := by
  obtain ⟨before, e, after, rfl⟩ := h
  exact ⟨a ++ before, e, after, by simp⟩

theorem not_holds_nil : ¬Holds [] := by
  rintro ⟨before, e, after, h⟩
  simp [written, Utf8.encode] at h

/-- Where no event is written down there is nothing to rename. -/
theorem Renamed.eq {a a' : Bytes} (h : Renamed a a') (hnot : ¬Holds a) : a' = a := by
  induction h with
  | same content => rfl
  | event e id id' => exact absurd (holds_written _) hnot
  | append _ _ iha ihb =>
    rw [iha fun hold => hnot (hold.append_right _), ihb fun hold => hnot (hold.append_left _)]

end Journal

/-! ## Entries -/

/-- The second entry is the first one, or a file like it with cycles renamed in it. -/
inductive Entry.Renamed : Entry → Entry → Prop
  | same (e : Entry) : Entry.Renamed e e
  | file {content content' : Bytes} (h : Journal.Renamed content content') (time : Int) :
    Entry.Renamed (.file content time) (.file content' time)

namespace Entry.Renamed

variable {e e' : Entry}

theorem time_eq (h : e.Renamed e') : e'.time = e.time := by cases h <;> rfl

/-- Nothing is renamed in what holds no event. -/
theorem eq (h : e.Renamed e') (hnot : ∀ content time, e = .file content time → ¬Journal.Holds content) :
    e' = e := by
  cases h with
  | same => rfl
  | file h time => rw [h.eq (hnot _ _ rfl)]

end Entry.Renamed

theorem likeness_renamed : Likeness Entry.Renamed where
  refl := .same
  kind_eq h := by cases h <;> rfl

/-- The same time can be set to both. -/
theorem stamps_renamed (now : Int) : Stamps Entry.Renamed now now := fun e e' he => by
  cases he with
  | same => exact .same _
  | file h time => exact .file h now

/-! ## Disks -/

namespace Disk

/-- The second disk is the first one with cycles renamed in some files. -/
structure Renamed (d d' : Disk) : Prop where
  tree : d.tree.Related Entry.Renamed d'.tree
  current : d'.current = d.current
  adrift : d'.adrift = d.adrift

namespace Renamed

variable {d d' : Disk} {p : Path}

theorem refl (d : Disk) : d.Renamed d := ⟨Tree.related_refl likeness_renamed _, rfl, rfl⟩

theorem alike (h : d.Renamed d') : d.Alike d' := h.tree.skeleton_eq likeness_renamed

variable (h : d.Renamed d')
include h

theorem sameStart (p : Path) : SameStart d d' p := .inr ⟨h.current, h.adrift⟩

theorem stat (p : Path) :
    Matched (fun le le' => le.1 = le'.1 ∧ le.2.Renamed le'.2) (d.stat p) (d'.stat p) :=
  stat_related likeness_renamed h.tree (h.sameStart p)

theorem holds_eq {q : Entry → Bool} (hq : ∀ e, q e.kind = q e) (p : Path) :
    d'.holds p q = d.holds p q := holds_eq_of_related likeness_renamed h.tree (h.sameStart p) hq

/-- A path leads to the same entry on both disks if that holds no event. -/
theorem stat_eq
    (hp : ∀ l content time, d.stat p = .ok (l, .file content time) → ¬Journal.Holds content) :
    d'.stat p = d.stat p := by
  have hstat := h.stat p
  generalize d.stat p = x at hstat hp ⊢
  generalize d'.stat p = y at hstat ⊢
  cases hstat with
  | error er => rfl
  | @ok le le' hle =>
    obtain ⟨l, e⟩ := le
    obtain ⟨l', e'⟩ := le'
    obtain ⟨rfl, he⟩ := hle
    dsimp only at he hp ⊢
    rw [he.eq fun content time heq => hp l content time (by rw [heq])]

theorem absolute_eq (p : Path) : d'.absolute p = d.absolute p :=
  absolute_eq_of_related h.current h.adrift likeness_renamed h.tree p

/-! ## Calls -/

/-- What is changed alike on such disks leaves such disks. -/
theorem changed {d₁ d₁' : Disk} (hc : Changed Entry.Renamed d d' d₁ d₁') : d₁.Renamed d₁' := by
  cases hc with
  | same => exact h
  | tree ht =>
    refine ⟨ht, h.current, ?_⟩
    rw [withTree, withTree, h.adrift, h.current, ht.isDirectory_eq likeness_renamed]

theorem make (p : Path) (e : Entry) (now : Int) :
    Matched Disk.Renamed (d.make p e now) (d'.make p e now) :=
  (make_related likeness_renamed h.tree (h.sameStart p) (stamps_renamed now) (.same e)).imp
    fun _ _ => h.changed

theorem unlink (p : Path) (now : Int) : Matched Disk.Renamed (d.unlink p now) (d'.unlink p now) :=
  (unlink_related likeness_renamed h.tree (h.sameStart p) (stamps_renamed now)).imp
    fun _ _ => h.changed

theorem removeDirectory (p : Path) (now : Int) :
    Matched Disk.Renamed (d.removeDirectory p now) (d'.removeDirectory p now) :=
  (removeDirectory_related likeness_renamed h.tree (h.sameStart p) (stamps_renamed now)).imp
    fun _ _ => h.changed

theorem setTime (p : Path) (time : Int) :
    Matched Disk.Renamed (d.setTime p time) (d'.setTime p time) :=
  (setTime_related likeness_renamed h.tree (h.sameStart p) (stamps_renamed time)).imp
    fun _ _ => h.changed

theorem write (p : Path) (content : Bytes) (now : Int) :
    Matched Disk.Renamed (d.write p content now) (d'.write p content now) :=
  (write_related likeness_renamed h.tree (h.sameStart p) (stamps_renamed now) (.same _)).imp
    fun _ _ => h.changed

theorem link (p target : Path) (now : Int) :
    Matched Disk.Renamed (d.link p target now) (d'.link p target now) := by
  rw [Disk.link, Disk.link]
  split
  · exact .error _
  · exact h.make p _ now

theorem clear (p : Path) (now : Int) : Matched Disk.Renamed (d.clear p now) (d'.clear p now) :=
  (clear_related likeness_renamed h.tree (h.sameStart p) (stamps_renamed now)).imp
    fun _ _ => h.changed

theorem remove (p : Path) (now : Int) : Matched Disk.Renamed (d.remove p now) (d'.remove p now) :=
  (remove_related likeness_renamed h.tree (h.sameStart p) (stamps_renamed now)).imp
    fun _ _ => h.changed

/-- What is appended may have cycles renamed in it, too. -/
theorem append (p : Path) {bytes bytes' : Bytes} (hbytes : Journal.Renamed bytes bytes') (now : Int) :
    Matched Disk.Renamed (d.append p bytes now) (d'.append p bytes' now) := by
  refine (append_related likeness_renamed h.tree (h.sameStart p) (stamps_renamed now)
    (.file hbytes now) fun content time content' time' he => ?_).imp fun _ _ => h.changed
  cases he with
  | same => exact .file (.append (.same content) hbytes) now
  | file hcontent _ => exact .file (hcontent.append hbytes) now

end Renamed

end Disk

end Provenance
