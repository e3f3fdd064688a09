/-
What a journal holds.

Lines are only ever added at the end of a journal. If what it holds is nothing or ends with a
break, then an event that is appended to it is one line more, and the lines before it are as they
were.

An update leaves what the journal holds alone, as long as the journal is not what it makes or
takes away. What it makes is directories and empty files, so that a journal that was missing
holds nothing even if the update should make it. What it takes away is directories and files, and
never a link, so that the path of the journal leads to no other place than before.
-/
import Provenance.Proofs.Disk.Listing
import Provenance.Proofs.Disk.Renamed
import Provenance.Proofs.Journal
import Provenance.Proofs.Update.Growth

set_option autoImplicit false

namespace Provenance

/-! ## Lines -/

namespace Journal

/-- The lines of a journal that have ended, without their breaks. -/
def linesIn (content : Bytes) : List Bytes := (content.splitOn 10).dropLast

/-- The content is empty or ends with a break. -/
def Whole (content : Bytes) : Prop := content = [] ∨ ∃ before, content = before ++ [10]

theorem written_eq (e : Event) : written e = Utf8.encode e.line ++ [10] := by
  rw [written, Utf8.encode_append]
  rfl

theorem whole_written (content : Bytes) (e : Event) : Whole (content ++ written e) :=
  .inr ⟨content ++ Utf8.encode e.line, by rw [written_eq, List.append_assoc]⟩

/-- An event that is written after a break is one line more. -/
theorem linesIn_append_written {content : Bytes} (hwhole : Whole content) {e : Event}
    (he : '\n' ∉ e.line) :
    linesIn (content ++ written e) = linesIn content ++ [Utf8.encode e.line] := by
  have hline : (10 : UInt8) ∉ Utf8.encode e.line := fun h => he (Utf8.newline_of_mem_encode h)
  have hlast : (Utf8.encode e.line ++ [10]).splitOn 10 = [Utf8.encode e.line] ++ [[]] := by
    rw [List.splitOn_append_cons_self, List.splitOn_eq_singleton hline, List.splitOn_nil]
  rw [linesIn, linesIn, written_eq]
  rcases hwhole with rfl | ⟨before, rfl⟩
  · rw [List.nil_append, hlast, List.dropLast_concat]
    rfl
  · rw [List.append_assoc, List.singleton_append, List.splitOn_append_cons_self, hlast,
      ← List.append_assoc, List.dropLast_concat, List.splitOn_append_cons_self, List.splitOn_nil,
      List.dropLast_concat]

/-- Events that are written one after the other are as many lines, in that order. -/
theorem linesIn_append_flatMap {content : Bytes} (hwhole : Whole content) {events : List Event}
    (hevents : ∀ e ∈ events, '\n' ∉ e.line) :
    linesIn (content ++ events.flatMap written)
      = linesIn content ++ events.map fun e => Utf8.encode e.line := by
  induction events generalizing content with
  | nil => simp
  | cons e events ih =>
    rw [List.flatMap_cons, ← List.append_assoc,
      ih (whole_written content e) fun e' he' => hevents e' (List.mem_cons_of_mem _ he'),
      linesIn_append_written hwhole (hevents e (List.mem_cons_self ..)), List.map_cons,
      List.append_assoc, List.singleton_append]

end Journal

/-! ## Trees to which nothing but empty things is added -/

/-- The second tree has all that the first has, times aside, and beside it directories and empty
files alone. -/
def Tree.Fills (t t' : Tree) : Prop :=
  t.Keeps t' ∧ ∀ x e, t'.shape x = some e → t.shape x = some e ∨ e = .directory 0 ∨ e = .file [] 0

/-- What an update makes is empty. -/
theorem Update.Grown.fills {before after : Tree} {made : List Update.Made}
    (h : Update.Grown before after made) : before.Fills after := by
  refine ⟨h.keeps, fun x e hx => (h.cases hx).imp_right fun ⟨m, _, _, hentry⟩ => ?_⟩
  rw [← hentry, Update.Made.entry]
  split
  · exact .inl rfl
  · exact .inr rfl

namespace Disk

variable {d d' : Disk} {p : Path} {dir x : Location} {n : Text} {e : Entry}

/-- Where a path leads to a missing name, it can lead to nothing else on a disk that has the same
directories and links and no link of that name. -/
theorem eq_of_place_absent (hd : d.Legal) (hd' : d'.Legal) (hp : p.Straight)
    (h : d.place true p = .ok (.absent dir n)) (hk : Passable d.tree d'.tree)
    (hlink : ∀ target, d'.tree.find? (dir ++ [n]) ≠ some (.link target))
    (h' : d'.place true p = .ok (.present x e)) : x = dir ++ [n] := by
  have habs := hp.isAbsolute
  rcases hfind : d'.tree.find? (dir ++ [n]) with _ | e'
  · -- were there a file of that name, the path would lead to it, and to what it leads to now
    have hsome := Tree.isSome_find?_of_isDirectory
      (hk.directory dir (place_absent hd.tree hp h).1)
    have hkeeps : d'.tree.Keeps (d'.withTree (d'.tree.add (dir ++ [n]) (.file [] 0) 0)).tree :=
      Tree.keeps_add hsome hfind (.file [] 0) 0
    have hnew := Tree.find?_add hsome n (.file [] 0) 0 (dir ++ [n])
    rw [if_pos rfl] at hnew
    obtain ⟨e', hpl⟩ := place_of_keeps hd'.tree habs h' hkeeps
    have hpl' := place_filled habs h (hk.trans hkeeps.passable) hnew rfl
    rw [hpl] at hpl'
    exact (Place.present.inj (Except.ok.inj hpl')).1
  · have hno : e'.isLink = false := by
      cases e' with
      | link target => exact absurd hfind (hlink target)
      | _ => rfl
    have hpl := place_filled habs h hk hfind hno
    rw [h'] at hpl
    exact (Place.present.inj (Except.ok.inj hpl)).1

end Disk

/-! ## Content -/

namespace Journal

variable {d d' d'' : Disk} {path : Path} {content content' : Bytes}

/-- What a journal holds, if an event can be added to it: the content of its file, or nothing if there
is no file yet. -/
def held? (d : Disk) (path : Path) : Option Bytes :=
  match d.place true path with
  | .ok (.present _ (.file content _)) => some content
  | .ok (.absent _ _) => some []
  | _ => none

/-- What a journal holds; nothing if it cannot be had. -/
def held (d : Disk) (path : Path) : Bytes := (held? d path).getD []

theorem held_of_held? (h : held? d path = some content) : held d path = content := by
  rw [held, h, Option.getD_some]

theorem held?_eq_some_iff : held? d path = some content
    ↔ (∃ x time, d.place true path = .ok (.present x (.file content time)))
      ∨ (∃ dir n, d.place true path = .ok (.absent dir n)) ∧ content = [] := by
  unfold held?
  rcases d.place true path with er | ⟨x, e⟩ | ⟨dir, n⟩
  · simp
  · cases e <;> simp
  · simp [eq_comm]

/-- A file that the path leads to on two disks on which it holds the same is the same to a reader. -/
theorem held?_of_shape {x : Location} {e : Entry} (hp : path.isAbsolute = true)
    (hpl : d.place true path = .ok (.present x e)) (hx : d.tree.shape x = some (.file content 0)) :
    held? d path = some content := by
  have hfind := Disk.place_present hp hpl
  rw [Tree.shape_of_find? hfind, Option.some.injEq] at hx
  cases e with
  | file content' time =>
    obtain rfl : content' = content := by simpa using hx
    exact held?_eq_some_iff.mpr (.inl ⟨x, time, hpl⟩)
  | _ => simp [Entry.timeless, Entry.setTime] at hx

/-- An event that is appended comes after what the journal held. -/
theorem held?_append (hd : d.Legal) (hp : path.Straight) (h : held? d path = some content)
    {bytes : Bytes} {now : Int} (hc : d.append path bytes now = .ok d') :
    held? d' path = some (content ++ bytes) := by
  have habs := hp.isAbsolute
  rcases Disk.append_ok hc with ⟨dir, n, hpl, rfl⟩ | ⟨x, old, time, hpl, rfl⟩
    | ⟨x, e, hpl, hdir, hfile, -⟩
  · obtain ⟨hdir, hfree, -⟩ := Disk.place_absent hd.tree hp hpl
    have hsome := Tree.isSome_find?_of_isDirectory hdir
    have hkeeps := Tree.keeps_add hsome hfree (.file bytes now) now
    have hnew := Tree.find?_add hsome n (.file bytes now) now (dir ++ [n])
    rw [if_pos rfl] at hnew
    obtain rfl : content = [] := by simpa [held?, hpl] using h.symm
    exact held?_eq_some_iff.mpr (.inl ⟨_, _, Disk.place_filled habs hpl hkeeps.passable hnew rfl⟩)
  · have hold := Disk.place_present habs hpl
    have hparent := hd.tree.isSome_find?_dropLast (l := x) (by simp [hold])
    have hnew := Tree.find?_put hparent (.file (old ++ bytes) now) x
    rw [if_pos rfl] at hnew
    have honward := Tree.passable_put_file hparent hold (old ++ bytes) now
    obtain rfl : content = old := by simpa [held?, hpl] using h.symm
    exact held?_eq_some_iff.mpr (.inl ⟨_, _, Disk.place_keeps habs hpl honward hnew rfl⟩)
  · cases e with
    | file _ _ => simp [Entry.isFile] at hfile
    | _ => simp [held?, hpl] at h

/-- A journal that events can be added to takes text. -/
theorem takesText_of_held? (h : held? d path = some content) : d.takesText path = true := by
  rcases held?_eq_some_iff.mp h with ⟨x, time, hpl⟩ | ⟨⟨dir, n, hpl⟩, -⟩
  · simp [Disk.takesText, hpl, Entry.isDirectory]
  · simp [Disk.takesText, hpl]

/-- What a journal holds stays as it is when nothing but empty things is made. -/
theorem eq_of_fills (hd : d.Legal) (hd' : d'.Legal) (hp : path.Straight)
    (h : held? d path = some content) (hfills : d.tree.Fills d'.tree)
    (hafter : held? d' path = some content') : content' = content := by
  have habs := hp.isAbsolute
  rcases held?_eq_some_iff.mp h with ⟨x, time, hpl⟩ | ⟨⟨dir, n, hpl⟩, rfl⟩
  · obtain ⟨e, hpl'⟩ := Disk.place_of_keeps hd.tree habs hpl hfills.1
    have hsame := held?_of_shape habs hpl'
      (hfills.1 x _ (Tree.shape_of_find? (Disk.place_present habs hpl)))
    exact Option.some.inj (hafter.symm.trans hsame)
  rcases held?_eq_some_iff.mp hafter with ⟨x, time, hpl'⟩ | ⟨-, rfl⟩
  swap
  · rfl
  have hfree := Tree.shape_eq_none_iff.mpr (Disk.place_absent hd.tree hp hpl).2.1
  -- the file is a new one, and so it is empty
  obtain rfl := Disk.eq_of_place_absent hd hd' hp hpl hfills.1.passable (fun target hlink => by
    rcases hfills.2 _ _ (Tree.shape_of_find? hlink) with hold | hentry | hentry
    · simp [hfree] at hold
    all_goals simp [Entry.timeless, Entry.setTime] at hentry) hpl'
  rcases hfills.2 _ _ (Tree.shape_of_find? (Disk.place_present habs hpl')) with hold | hentry | hentry
  · simp [hfree] at hold
  · simp [Entry.timeless, Entry.setTime] at hentry
  · simpa [Entry.timeless, Entry.setTime] using hentry

/-- Nor does it change when things are taken away after that, as long as neither links go nor the file
that the journal is. -/
theorem eq_of_fills_of_keeps (hd : d.Legal) (hd' : d'.Legal) (hd'' : d''.Legal) (hp : path.Straight)
    (h : held? d path = some content) (hfills : d.tree.Fills d'.tree)
    (hkeeps : d''.tree.Keeps d'.tree)
    (hlinks : ∀ x target, d'.tree.find? x = some (.link target) → (d''.tree.find? x).isSome)
    (hfile : ∀ x e, d'.place true path = .ok (.present x e) → e.isFile = true →
      (d''.tree.find? x).isSome)
    (hafter : held? d'' path = some content') : content' = content := by
  have habs := hp.isAbsolute
  rcases held?_eq_some_iff.mp hafter with ⟨x, time, hpl''⟩ | ⟨⟨dir, n, hpl''⟩, rfl⟩
  · obtain ⟨e, hpl'⟩ := Disk.place_of_keeps hd''.tree habs hpl'' hkeeps
    exact eq_of_fills hd hd' hp h hfills (held?_of_shape habs hpl'
      (hkeeps x _ (Tree.shape_of_find? (Disk.place_present habs hpl''))))
  · rcases held?_eq_some_iff.mp h with ⟨x, time, hpl⟩ | ⟨-, rfl⟩
    swap
    · rfl
    obtain ⟨e, hpl'⟩ := Disk.place_of_keeps hd.tree habs hpl hfills.1
    have hshape := hfills.1 x _ (Tree.shape_of_find? (Disk.place_present habs hpl))
    have hisFile : e.isFile = true := by
      rw [Tree.shape_of_find? (Disk.place_present habs hpl'), Option.some.injEq] at hshape
      rw [← Entry.isFile_timeless, hshape]
      rfl
    -- the file is still there, and the path would lead to it
    have hfree := (Disk.place_absent hd''.tree hp hpl'').2.1
    obtain rfl := Disk.eq_of_place_absent hd'' hd' hp hpl'' hkeeps.passable (fun target hlink => by
      simpa [hfree] using hlinks _ _ hlink) hpl'
    simpa [hfree] using hfile _ _ hpl' hisFile

end Journal

end Provenance
