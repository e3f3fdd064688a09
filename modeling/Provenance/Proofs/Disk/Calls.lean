/-
What the calls on a disk do.

The paths that updates work with are straight: they start at the root and go
through names alone. What a straight path leads to follows from what its parent
leads to, which is all that has to be known of searches from here on.

For each call there is an equation for its success, and each leaves a legal disk
legal. A file or directory that a call has made is found by its path in every
later tree that still lets the path through: `leadsTo_of_absent` is what later
takes the artifacts of a failed update away again.
-/
import Mathlib.Data.List.Induction
import Provenance.Proofs.Disk.Shape
import Provenance.Proofs.Text.Utf8

set_option autoImplicit false

namespace Provenance

namespace Disk

variable {d d' : Disk} {p q : Path} {n m : Text} {now : Int} {l dir : Location} {e : Entry}
  {follow : Bool}

/-- A path that goes on is at least as long. -/
theorem isOverlong_child (hp : p.isAbsolute = true) (n : Text) (h : isOverlong p = true) :
    isOverlong (p.child n) = true := by
  have hlen : (Utf8.encode p.text).length ≤ (Utf8.encode (p.child n).text).length := by
    rw [Path.text_of_isAbsolute hp, Path.text_of_isAbsolute (p := p.child n) hp]
    simp only [Path.bareText, Path.child, Utf8.encode_append, List.length_append]
    -- the root has no slash to add; everywhere else the name comes after one
    rcases List.eq_nil_or_concat p.names with hnil | ⟨ns, m, hcons⟩
    · simp [hnil, Text.join, List.intercalate, Utf8.encode]
    · rw [Text.join_concat _ _ _ (by simp [hcons])]
      simp only [Utf8.encode_append, List.length_append]
      omega
  simp only [isOverlong, decide_eq_true_eq] at h ⊢
  omega

theorem isOverlong_descend (hp : p.isAbsolute = true) (names : List Text)
    (h : isOverlong p = true) : isOverlong (p.descend names) = true := by
  induction names generalizing p with
  | nil => rw [Path.descend_nil]; exact h
  | cons n names ih =>
    rw [Path.descend_cons]
    exact ih (p := p.child n) hp (isOverlong_child hp n h)

/-- What a path leads to, by what its parent leads to. -/
theorem place_child (ht : d.tree.Legal) (hp : p.isAbsolute = true) (hn : n ≠ Path.upName) :
    d.place false (p.child n)
      = if isOverlong (p.child n) then .error .nameTooLong
        else stepFrom d.tree n (d.place true p) := by
  rw [place_absolute d false (p := p.child n) hp, place_absolute d true hp]
  split
  · rfl
  · rename_i hlong
    rw [if_neg fun h => hlong (isOverlong_child hp n h)]
    exact walk_concat ht (by simp) hn

/-- What a path leads to, links not followed, is in the directory that its parent leads to. -/
theorem place_child_present_iff (ht : d.tree.Legal) (hp : p.isAbsolute = true)
    (hn : n ≠ Path.upName) : d.place false (p.child n) = .ok (.present l e)
      ↔ isOverlong (p.child n) = false ∧ ¬ IsLong n ∧ ∃ dir e₀, d.place true p = .ok (.present dir e₀)
        ∧ d.tree.isDirectory dir = true ∧ d.tree.find? (dir ++ [n]) = some e ∧ l = dir ++ [n] := by
  rw [place_child ht hp hn]
  split
  · rename_i hover
    simp [hover]
  · rename_i hshort
    simp only [stepFrom_ok_iff, lastStep_present_iff]
    constructor
    · rintro ⟨dir, e₀, hpar, hdir, hlong, hfind, hl⟩
      exact ⟨by simpa using hshort, hlong, dir, e₀, hpar, hdir, hfind, hl⟩
    · rintro ⟨-, hlong, dir, e₀, hpar, hdir, hfind, hl⟩
      exact ⟨dir, e₀, hpar, hdir, hlong, hfind, hl⟩

/-- A missing name, links not followed, is missing from the directory that the parent leads to. -/
theorem place_child_absent_iff (ht : d.tree.Legal) (hp : p.isAbsolute = true)
    (hn : n ≠ Path.upName) : d.place false (p.child n) = .ok (.absent dir m)
      ↔ isOverlong (p.child n) = false ∧ ¬ IsLong n ∧ (∃ e₀, d.place true p = .ok (.present dir e₀))
        ∧ d.tree.isDirectory dir = true ∧ d.tree.find? (dir ++ [n]) = none ∧ m = n := by
  rw [place_child ht hp hn]
  split
  · rename_i hover
    simp [hover]
  · rename_i hshort
    simp only [stepFrom_ok_iff, lastStep_absent_iff]
    constructor
    · rintro ⟨dir, e₀, hpar, hdir, hlong, hnone, rfl, hm⟩
      exact ⟨by simpa using hshort, hlong, ⟨e₀, hpar⟩, hdir, hnone, hm⟩
    · rintro ⟨-, hlong, ⟨e₀, hpar⟩, hdir, hnone, hm⟩
      exact ⟨dir, e₀, hpar, hdir, hlong, hnone, rfl, hm⟩

/-- The name that is missing is the one that was looked for. -/
theorem eq_of_place_child_absent (ht : d.tree.Legal) (hp : p.isAbsolute = true)
    (hn : n ≠ Path.upName) (h : d.place false (p.child n) = .ok (.absent dir m)) : m = n := by
  obtain ⟨-, -, -, -, -, heq⟩ := (place_child_absent_iff ht hp hn).mp h
  exact heq

theorem place_present (hp : p.isAbsolute = true) (h : d.place follow p = .ok (.present l e)) :
    d.tree.find? l = some e := by
  rw [place_absolute d follow hp] at h
  split at h
  · simp at h
  · exact walk_present h

/-- What a path leads to is in the tree, unless it is the current directory, removed since. -/
theorem place_present_of_not_directory (h : d.place follow p = .ok (.present l e))
    (he : e.isDirectory = false) : d.tree.find? l = some e := by
  unfold place at h
  split at h
  · simp at h
  split at h
  · split at h
    · obtain ⟨rfl, rfl⟩ : d.current = l ∧ Entry.directory 0 = e := by simpa using h
      simp [Entry.isDirectory] at he
    · simp at h
  · split at h
    · rename_i w hw
      rw [search_eq_walk _ _ _ (valid_wayFrom? (w := []) trivial rfl hw)] at h
      exact walk_present h
    · simp at h

theorem place_absent (ht : d.tree.Legal) (hp : p.Straight)
    (h : d.place follow p = .ok (.absent dir n)) :
    d.tree.isDirectory dir = true ∧ d.tree.find? (dir ++ [n]) = none ∧ Path.IsName n
      ∧ ¬ IsLong n := by
  rw [place_absolute d follow hp.isAbsolute] at h
  split at h
  · simp at h
  · exact walk_absent ht hp.pieces h

/-- Where nothing is found, nothing would be found by following links either. -/
theorem place_follow_absent (hp : p.isAbsolute = true)
    (h : d.place false p = .ok (.absent dir n)) : d.place true p = .ok (.absent dir n) := by
  rw [place_absolute d _ hp] at h ⊢
  split at h
  · simp at h
  · rename_i hlong
    rw [if_neg hlong]
    exact walk_follow h (by simp)

/-- What is found and is no link is found by following links too. -/
theorem place_follow_present (hp : p.isAbsolute = true)
    (h : d.place false p = .ok (.present l e)) (he : e.isLink = false) :
    d.place true p = .ok (.present l e) := by
  rw [place_absolute d _ hp] at h ⊢
  split at h
  · simp at h
  · rename_i hlong
    rw [if_neg hlong]
    apply walk_follow h
    intro l' e' heq
    obtain ⟨rfl, rfl⟩ : l = l' ∧ e = e' := by simpa using heq
    exact he

/-- A search that gets stuck gets stuck when it follows links too. -/
theorem place_follow_error (hp : p.isAbsolute = true) {er : Errno}
    (h : d.place false p = .error er) : d.place true p = .error er := by
  rw [place_absolute d _ hp] at h ⊢
  split at h
  · rename_i hlong
    rw [if_pos hlong]
    exact h
  · rename_i hlong
    rw [if_neg hlong]
    exact walk_follow_error h

/-- Where nothing is, there is nothing further on, whatever the names are. -/
theorem place_descend_of_absent (ht : d.tree.Legal) (hp : p.isAbsolute = true)
    (h : d.place true p = .ok (.absent dir n)) {names : List Text} (hne : names ≠ [])
    (hnames : ∀ m ∈ names, m ≠ Path.upName) (hlong : isOverlong (p.descend names) = false) :
    d.place true (p.descend names) = .error .notFound := by
  -- induction from the end, so that each step is one from a parent where nothing is
  induction names using List.reverseRecOn with
  | nil => exact absurd rfl hne
  | append_singleton ms m ih =>
    have hm : m ≠ Path.upName := hnames m (by simp)
    rw [Path.descend_concat] at hlong ⊢
    have hstep : d.place false ((p.descend ms).child m) = .error .notFound := by
      rw [place_child (p := p.descend ms) ht hp hm, if_neg (by simp [hlong])]
      rcases ms with _ | ⟨k, ms⟩
      · rw [Path.descend_nil, h]
        rfl
      · have hshort : isOverlong (p.descend (k :: ms)) = false :=
          Bool.eq_false_iff.mpr fun hover => by
            simp [isOverlong_child (p := p.descend (k :: ms)) hp m hover] at hlong
        rw [ih (by simp) (fun j hj => hnames j (List.mem_append_left _ hj)) hshort]
        rfl
    exact place_follow_error (p := (p.descend ms).child m) hp hstep

/-- A search that follows links does not end at one. -/
theorem place_not_link (ht : d.tree.Legal) (hp : p.isAbsolute = true)
    (h : d.place true p = .ok (.present l e)) : e.isLink = false := by
  rw [place_absolute d _ hp] at h
  split at h
  · simp at h
  · exact walk_not_link ht (fun _ => not_link_of_isDirectory ht.isDirectory_nil) h

/-- A path keeps leading where it does as long as directories and links stay. -/
theorem place_keeps (hp : p.isAbsolute = true) (h : d.place true p = .ok (.present l e))
    (hk : Passable d.tree d'.tree) {e' : Entry} (he : d'.tree.find? l = some e')
    (hlink : e'.isLink = false) : d'.place true p = .ok (.present l e') := by
  rw [place_absolute _ _ hp] at h ⊢
  split at h
  · simp at h
  · rename_i hlong
    rw [if_neg hlong]
    exact walk_keeps hk h he hlink

theorem place_filled (hp : p.isAbsolute = true) (h : d.place true p = .ok (.absent dir n))
    (hk : Passable d.tree d'.tree) (he : d'.tree.find? (dir ++ [n]) = some e)
    (hlink : e.isLink = false) : d'.place true p = .ok (.present (dir ++ [n]) e) := by
  rw [place_absolute _ _ hp] at h ⊢
  split at h
  · simp at h
  · rename_i hlong
    rw [if_neg hlong]
    exact walk_filled hk h he hlink

/-- A path that leads nowhere is too long, by itself or in one of its names, or nothing is there. -/
theorem place_error (hp : p.isAbsolute = true) {er : Errno} (h : d.place follow p = .error er) :
    er = .nameTooLong ∨ meansAbsent er = true := by
  rw [place_absolute d follow hp] at h
  split at h
  · exact .inl (Except.error.inj h).symm
  · exact walk_error h

/-- What is too long to be looked up stays so as long as directories and links stay. -/
theorem place_nameTooLong (hp : p.isAbsolute = true) (h : d.place follow p = .error .nameTooLong)
    (hk : Passable d.tree d'.tree) : d'.place follow p = .error .nameTooLong := by
  rw [place_absolute _ _ hp] at h ⊢
  split at h
  · rename_i hlong
    rw [if_pos hlong]
  · rename_i hlong
    rw [if_neg hlong]
    exact walk_nameTooLong hk h

/-! ## Made entries -/

/-- Whatever is at the location in a tree is what the path leads to there, links not followed. -/
def LeadsTo (t : Tree) (p : Path) (l : Location) : Prop :=
  ∀ d : Disk, d.tree = t → ∀ e, t.find? l = some e → d.place false p = .ok (.present l e)

/-- Where something is made at a missing name, its path leads to it in every tree that lets the path
through. -/
theorem leadsTo_of_absent (ht : d.tree.Legal) (hp : p.isAbsolute = true) (hn : n ≠ Path.upName)
    (h : d.place false (p.child n) = .ok (.absent dir n)) {t : Tree} (ht' : t.Legal)
    (hk : Passable d.tree t) : LeadsTo t (p.child n) (dir ++ [n]) := by
  intro d' hd' e he
  subst hd'
  obtain ⟨hshort, hlong, ⟨e₀, hpar⟩, hdir, -⟩ := (place_child_absent_iff ht hp hn).mp h
  have hdir' := hk.directory dir hdir
  obtain ⟨time, hfind⟩ := Tree.isDirectory_iff.mp hdir'
  -- the parent leads to the directory in the other tree as well, and there the name is looked up
  have hpar' := place_keeps hp hpar hk hfind rfl
  exact (place_child_present_iff ht' hp hn).mpr ⟨hshort, hlong, dir, _, hpar', hdir', he, rfl⟩

/-! ## The calls -/

@[simp] theorem tree_withTree (d : Disk) (t : Tree) : (d.withTree t).tree = t := rfl

theorem createFile_ok (h : d.createFile p now = .ok d') :
    ∃ dir n, d.place false p = .ok (.absent dir n)
      ∧ d' = d.withTree (d.tree.add (dir ++ [n]) (.file [] now) now) := by
  unfold createFile at h
  split at h
  · rename_i dir n hpl
    exact ⟨dir, n, hpl, (Except.ok.inj h).symm⟩
  · simp at h
  · simp at h

/-- A file is not created where something is. -/
theorem createFile_alreadyThere (hp : p.isAbsolute = true)
    (h : d.createFile p now = .error .alreadyThere) :
    ∃ l e, d.place false p = .ok (.present l e) := by
  unfold createFile at h
  rcases hpl : d.place false p with er | ⟨l, e⟩ | ⟨dir, n⟩
  · obtain rfl : er = .alreadyThere := by simpa [hpl] using h
    rw [place_absolute d false hp] at hpl
    split at hpl
    · simp at hpl
    · rcases walk_error hpl with heq | habsent
      · simp at heq
      · simp [meansAbsent] at habsent
  · exact ⟨l, e, rfl⟩
  · simp [hpl] at h

theorem makeDirectory_of_absent (h : d.place false p = .ok (.absent dir n)) (now : Int) :
    d.makeDirectory p now = .ok (d.withTree (d.tree.add (dir ++ [n]) (.directory now) now)) := by
  rw [makeDirectory, h]

theorem makeDirectory_ok (h : d.makeDirectory p now = .ok d') :
    ∃ dir n, d.place false p = .ok (.absent dir n)
      ∧ d' = d.withTree (d.tree.add (dir ++ [n]) (.directory now) now) := by
  unfold makeDirectory at h
  split at h
  · rename_i dir n hpl
    exact ⟨dir, n, hpl, (Except.ok.inj h).symm⟩
  · simp at h
  · simp at h

theorem unlink_ok (h : d.unlink p now = .ok d') :
    ∃ l e, d.place false p = .ok (.present l e) ∧ e.isDirectory = false
      ∧ d' = d.withTree (d.tree.remove l now) := by
  unfold unlink at h
  split at h
  · simp at h
  · simp at h
  · rename_i l e hnot hpl
    refine ⟨l, e, hpl, ?_, (Except.ok.inj h).symm⟩
    cases e with
    | directory time => exact absurd rfl (hnot time)
    | _ => rfl
  · simp at h

theorem removeDirectory_ok (h : d.removeDirectory p now = .ok d') :
    ∃ l time, d.place false p = .ok (.present l (.directory time)) ∧ l ≠ []
      ∧ d.tree.isEmptyAt l = true ∧ d' = d.withTree (d.tree.remove l now) := by
  unfold removeDirectory at h
  rcases hpl : d.place false p with er | ⟨l, e⟩ | ⟨dir, n⟩
  · simp [hpl] at h
  · rw [hpl] at h
    cases e with
    | directory time =>
      dsimp only at h
      split at h
      · simp at h
      split at h
      · simp at h
      split at h
      · simp at h
      rename_i hl
      split at h
      · rename_i hempty
        exact ⟨l, time, rfl, hl, hempty, (Except.ok.inj h).symm⟩
      · simp at h
    | _ => simp at h
  · simp [hpl] at h

theorem setTime_ok {time : Int} (h : d.setTime p time = .ok d') :
    ∃ l e, d.place true p = .ok (.present l e) ∧ d' = d.withTree (d.tree.stamp l time) := by
  rw [setTime, stat] at h
  rcases hpl : d.place true p with er | ⟨l, e⟩ | ⟨dir, n⟩
  · simp [hpl] at h
  · rw [hpl] at h
    exact ⟨l, e, rfl, (Except.ok.inj h).symm⟩
  · simp [hpl] at h

/-- Whether text can be appended at a path: something that is no directory is there, or could be. -/
def takesText (d : Disk) (p : Path) : Bool :=
  match d.place true p with
  | .ok (.present _ e) => !e.isDirectory
  | .ok (.absent _ _) => true
  | .error _ => false

theorem append_ok_iff (d : Disk) (p : Path) (bytes : Bytes) (now : Int) :
    (∃ d', d.append p bytes now = .ok d') ↔ d.takesText p = true := by
  rw [append, takesText]
  rcases d.place true p with er | ⟨l, e⟩ | ⟨dir, n⟩
  · simp
  · cases e <;> simp [Entry.isDirectory]
  · simp

/-- What appending text does: it makes a file or adds to one, and changes nothing where the path
leads to neither a file nor a directory. -/
theorem append_ok {bytes : Bytes} (h : d.append p bytes now = .ok d') :
    (∃ dir n, d.place true p = .ok (.absent dir n)
        ∧ d' = d.withTree (d.tree.add (dir ++ [n]) (.file bytes now) now))
      ∨ (∃ l content time, d.place true p = .ok (.present l (.file content time))
        ∧ d' = d.withTree (d.tree.put l (.file (content ++ bytes) now)))
      ∨ ∃ l e, d.place true p = .ok (.present l e) ∧ e.isDirectory = false ∧ e.isFile = false
        ∧ d' = d := by
  rw [append] at h
  rcases hpl : d.place true p with er | ⟨l, e⟩ | ⟨dir, n⟩
  · simp [hpl] at h
  · rw [hpl] at h
    cases e with
    | file content time => exact .inr (.inl ⟨l, content, time, rfl, (Except.ok.inj h).symm⟩)
    | directory time => simp at h
    | link target => exact .inr (.inr ⟨l, _, rfl, rfl, rfl, (Except.ok.inj h).symm⟩)
    | special time => exact .inr (.inr ⟨l, _, rfl, rfl, rfl, (Except.ok.inj h).symm⟩)
  · rw [hpl] at h
    exact .inl ⟨dir, n, rfl, (Except.ok.inj h).symm⟩

/-! ## Legal disks -/

section

variable (hd : d.Legal)
include hd

theorem Legal.add {time : Int} (hp : p.Straight) (h : d.place follow p = .ok (.absent dir n))
    (he : e.isLink = false) : (d.withTree (d.tree.add (dir ++ [n]) e time)).Legal := by
  obtain ⟨hdir, hfree, hn, -⟩ := place_absent hd.tree hp h
  refine hd.withTree (hd.tree.add hdir hn hfree (fun target ht => ?_) time)
  simp [ht, Entry.isLink] at he

theorem Legal.createFile (hp : p.Straight) (h : d.createFile p now = .ok d') : d'.Legal := by
  obtain ⟨dir, n, hpl, rfl⟩ := createFile_ok h
  exact hd.add hp hpl rfl

theorem Legal.makeDirectory (hp : p.Straight) (h : d.makeDirectory p now = .ok d') :
    d'.Legal := by
  obtain ⟨dir, n, hpl, rfl⟩ := makeDirectory_ok h
  exact hd.add hp hpl rfl

theorem Legal.unlink (h : d.unlink p now = .ok d') : d'.Legal := by
  obtain ⟨l, e, hpl, he, rfl⟩ := unlink_ok h
  refine hd.withTree (hd.tree.remove (fun hl => ?_) now)
  -- what is unlinked is no directory, and so not the root
  have hfind := place_present_of_not_directory hpl he
  have hroot := hd.tree.root
  rw [hl, Tree.find?_nil, Option.some.injEq] at hfind
  simp [hfind, he] at hroot

theorem Legal.removeDirectory (h : d.removeDirectory p now = .ok d') : d'.Legal := by
  obtain ⟨l, time, -, hl, -, rfl⟩ := removeDirectory_ok h
  exact hd.withTree (hd.tree.remove hl now)

theorem Legal.setTime {time : Int} (h : d.setTime p time = .ok d') : d'.Legal := by
  obtain ⟨l, e, -, rfl⟩ := setTime_ok h
  exact hd.withTree (hd.tree.stamp l time)

theorem Legal.append {bytes : Bytes} (hp : p.Straight) (h : d.append p bytes now = .ok d') :
    d'.Legal := by
  rcases append_ok h with ⟨dir, n, hpl, rfl⟩ | ⟨l, content, time, hpl, rfl⟩ | ⟨l, e, -, -, -, rfl⟩
  · exact hd.add hp hpl rfl
  · have hfind := place_present hp.isAbsolute hpl
    -- the root is a directory, so a file is somewhere below it
    have hne : l ≠ [] := fun hl => by
      have hroot := hd.tree.root
      rw [hl, Tree.find?_nil, Option.some.injEq] at hfind
      simp [hfind, Entry.isDirectory] at hroot
    refine hd.withTree (hd.tree.put ?_ hne (hd.tree.nodes.isName (by simp [hfind])) ?_ (by simp))
    · have hsplit := List.dropLast_concat_getLast hne
      apply hd.tree.isDirectory_of_below (m := [l.getLast hne]) (by simp)
      rw [hsplit]
      simp [hfind]
    · exact hd.tree.isEmptyAt (by simp [Tree.isDirectory, hfind, Entry.isDirectory])
  · exact hd

end

end Disk

end Provenance
