/-
Files below a path.

A listing of what is below a location goes through the lists that directories are made
of. In a legal tree no name comes twice, so that it has each entry once, and what is
listed is what `find?` finds. From here on a listing is spoken of that way: a file is
below a path if the path leads to a location and names go on from there to the file.
The names go through directories alone, and links among them are not followed.

A path that goes on from another one by such names leads where they do, unless it is
too long to lead anywhere.
-/
import Provenance.Proofs.Disk.Calls
import Provenance.Proofs.Order

set_option autoImplicit false

namespace Provenance

/-! ## Listings -/

namespace Tree

variable {t c : Tree} {l m : Location} {n : Text} {e : Entry} {names : List Text}

/-- Where no name comes twice, what is among the trees in a directory is the tree of its name. -/
theorem NodeLegal.child?_of_mem (h : t.NodeLegal) (hc : (n, c) ∈ t.children) :
    t.child? n = some c := by
  have hnodup := h.nodup
  unfold child?
  -- the look-up goes through the list, so the induction is on the list alone
  generalize t.children = trees at hc hnodup ⊢
  induction trees with
  | nil => simp at hc
  | cons kt rest ih =>
    obtain ⟨k, d⟩ := kt
    rw [List.map_cons, List.nodup_cons] at hnodup
    rw [List.lookup_cons]
    rcases List.mem_cons.mp hc with heq | hc
    · obtain ⟨rfl, rfl⟩ := Prod.mk.inj heq
      simp
    · have hne : (n == k) = false := beq_eq_false_iff_ne.mpr fun hnk =>
        hnodup.1 (List.mem_map.mpr ⟨(n, c), hc, hnk⟩)
      rw [hne]
      exact ih hc hnodup.2

theorem mem_entriesBelow {trees : List (Text × Tree)} :
    (m, e) ∈ entriesBelow trees ↔ ∃ n l c, m = n :: l ∧ (n, c) ∈ trees ∧ (l, e) ∈ c.entries := by
  induction trees with
  | nil => simp [entriesBelow]
  | cons kt rest ih =>
    obtain ⟨k, d⟩ := kt
    rw [entriesBelow, List.mem_append, ih]
    constructor
    · rintro (h | ⟨n, l, c, hm, hc, he⟩)
      · obtain ⟨⟨l, e'⟩, hmem, heq⟩ := List.mem_map.mp h
        obtain ⟨rfl, rfl⟩ := Prod.mk.inj heq
        exact ⟨k, l, d, rfl, List.mem_cons_self .., hmem⟩
      · exact ⟨n, l, c, hm, List.mem_cons_of_mem _ hc, he⟩
    · rintro ⟨n, l, c, rfl, hc, he⟩
      rcases List.mem_cons.mp hc with heq | hc
      · obtain ⟨rfl, rfl⟩ := Prod.mk.inj heq
        exact .inl (List.mem_map.mpr ⟨(l, e), he, rfl⟩)
      · exact .inr ⟨n, l, c, rfl, hc, he⟩

/-- The entries of a tree are what is found in it. -/
theorem AllLegal.mem_entries (h : t.AllLegal) : (m, e) ∈ t.entries ↔ t.find? m = some e := by
  -- induction on the location; what is listed below a name is listed by the tree of that name
  induction m generalizing t with
  | nil =>
    obtain ⟨e₀, trees⟩ := t
    rw [entries, List.mem_cons, mem_entriesBelow, find?_nil, entry]
    constructor
    · rintro (heq | ⟨n, l, c, hm, -⟩)
      · rw [(Prod.mk.inj heq).2]
      · simp at hm
    · intro heq
      rw [Option.some.inj heq]
      exact .inl rfl
  | cons n m ih =>
    have hbelow : (n :: m, e) ∈ t.entries ↔ (n :: m, e) ∈ entriesBelow t.children := by
      obtain ⟨e₀, trees⟩ := t
      simp [entries, children]
    rw [hbelow, mem_entriesBelow, find?_cons]
    constructor
    · rintro ⟨k, l, c, hm, hc, he⟩
      obtain ⟨rfl, rfl⟩ := List.cons.inj hm
      have hchild := h.node.child?_of_mem hc
      rw [hchild]
      exact (ih (h.child hchild)).mp he
    · intro hf
      obtain ⟨c, hchild, hf⟩ := Option.bind_eq_some_iff.mp hf
      exact ⟨n, m, c, rfl, mem_children_of_child? hchild, (ih (h.child hchild)).mpr hf⟩

/-- What is listed below a location is what is found further on from there. -/
theorem AllLegal.mem_inside (h : t.AllLegal) :
    (names, e) ∈ t.inside l ↔ names ≠ [] ∧ t.find? (l ++ names) = some e := by
  rw [inside, find?_append]
  cases hl : t.at? l with
  | none => simp
  | some d =>
    dsimp only
    have hd : d.AllLegal := fun m c hc => h (l ++ m) c (by rw [at?_append, hl]; exact hc)
    rw [mem_sortOn, Option.bind_some, ← hd.mem_entries]
    obtain ⟨e₀, trees⟩ := d
    cases names with
    | nil => simp [mem_entriesBelow]
    | cons n names => simp [entries, children]

end Tree

/-! ## Going on by names -/

namespace Disk

variable {d d' : Disk} {root p path : Path} {l : Location} {e : Entry} {names : List Text}

/-- A path that goes on through directories leads to the last of them, if it leads anywhere. -/
theorem place_descend_directory (ht : d.tree.Legal) (hp : root.isAbsolute = true)
    (h : d.place true root = .ok (.present l e)) (hn : ∀ n ∈ names, n ≠ Path.upName)
    (hdir : d.tree.isDirectory (l ++ names) = true) :
    (∃ e', d.place true (root.descend names) = .ok (.present (l ++ names) e'))
      ∨ d.place true (root.descend names) = .error .nameTooLong := by
  -- induction from the end: the parent leads to its directory or nowhere, and a name that is a directory
  -- can only fail to be looked up by being too long
  induction names using List.reverseRecOn with
  | nil => exact .inl ⟨e, by simpa using h⟩
  | append_singleton names n ih =>
    have hup : n ≠ Path.upName := hn n (by simp)
    rw [← List.append_assoc] at hdir ⊢
    rw [Path.descend_concat]
    have hparent : d.tree.isDirectory (l ++ names) = true :=
      ht.isDirectory_of_below (m := [n]) (by simp) (Tree.isSome_find?_of_isDirectory hdir)
    obtain ⟨time, hfind⟩ := Tree.isDirectory_iff.mp hdir
    have hstep := place_child (p := root.descend names) (n := n) ht hp hup
    rcases ih (fun m hm => hn m (List.mem_append_left _ hm)) hparent with ⟨e', hpar⟩ | hpar
    · rw [hpar] at hstep
      simp only [stepFrom, lastStep, hparent, hfind] at hstep
      by_cases hlong : isOverlong ((root.descend names).child n) = true ∨ IsLong n
      · refine .inr (place_follow_error (p := (root.descend names).child n) hp ?_)
        rw [hstep]
        rcases hlong with hlong | hlong <;> simp [hlong]
      · obtain ⟨hshort, hshort'⟩ := not_or.mp hlong
        simp only [hshort, hshort', Bool.not_true, Bool.false_eq_true, if_false] at hstep
        exact .inl ⟨_, place_follow_present (p := (root.descend names).child n) hp hstep rfl⟩
    · rw [hpar] at hstep
      simp only [stepFrom] at hstep
      rw [ite_self] at hstep
      exact .inr (place_follow_error (p := (root.descend names).child n) hp hstep)

/-- What a path that goes on through directories leads to is where its names do. -/
theorem place_descend (ht : d.tree.Legal) (hp : root.isAbsolute = true)
    (h : d.place true root = .ok (.present l e)) (hne : names ≠ [])
    (hn : ∀ n ∈ names, n ≠ Path.upName) (hdir : d.tree.isDirectory (l ++ names.dropLast) = true)
    {x : Location} {e' : Entry} (hx : d.place false (root.descend names) = .ok (.present x e')) :
    x = l ++ names := by
  rcases List.eq_nil_or_concat names with hnil | ⟨ms, n, hcons⟩
  · exact absurd hnil hne
  rw [List.concat_eq_append] at hcons
  subst hcons
  rw [List.dropLast_concat] at hdir
  have hup : n ≠ Path.upName := hn n (by simp)
  rw [Path.descend_concat] at hx
  obtain ⟨-, -, dir, e₀, hpar, -, -, rfl⟩ :=
    (place_child_present_iff (p := root.descend ms) ht hp hup).mp hx
  rcases place_descend_directory ht hp h (fun m hm => hn m (List.mem_append_left _ hm)) hdir
    with ⟨e₁, hpar'⟩ | herror
  · obtain ⟨rfl, -⟩ : l ++ ms = dir ∧ e₁ = e₀ := by simpa [hpar] using hpar'.symm
    rw [List.append_assoc]
  · simp [hpar] at herror

/-- What a path leads to stays where it is in a tree that keeps everything. -/
theorem place_of_keeps (ht : d.tree.Legal) (hp : p.isAbsolute = true)
    (h : d.place true p = .ok (.present l e)) (hk : d.tree.Keeps d'.tree) :
    ∃ e', d'.place true p = .ok (.present l e') := by
  have hshape := hk l _ (Tree.shape_of_find? (place_present hp h))
  obtain ⟨e', hfind, htimeless⟩ := Option.map_eq_some_iff.mp hshape
  refine ⟨e', place_keeps hp h hk.passable hfind ?_⟩
  rw [← Entry.isLink_timeless, htimeless, Entry.isLink_timeless]
  exact place_not_link ht hp h

/-- What is at a path, links not followed, stays there too. -/
theorem place_child_of_keeps (ht : d.tree.Legal) (ht' : d'.tree.Legal) (hp : p.isAbsolute = true)
    {n : Text} (hn : n ≠ Path.upName) (h : d.place false (p.child n) = .ok (.present l e))
    (hk : d.tree.Keeps d'.tree) : ∃ e', d'.place false (p.child n) = .ok (.present l e') := by
  obtain ⟨hshort, hlong, dir, e₀, hpar, hdir, hfind, rfl⟩ :=
    (place_child_present_iff ht hp hn).mp h
  obtain ⟨e₁, hpar'⟩ := place_of_keeps ht hp hpar hk
  have hshape := hk _ _ (Tree.shape_of_find? hfind)
  obtain ⟨e', hfind', -⟩ := Option.map_eq_some_iff.mp hshape
  exact ⟨e', (place_child_present_iff ht' hp hn).mpr
    ⟨hshort, hlong, dir, e₁, hpar', hk.passable.directory dir hdir, hfind', rfl⟩⟩

/-! ## Files below a path -/

/-- A file is below a path: the path leads somewhere, and names go on from there to the file. -/
def HoldsFile (d : Disk) (root p : Path) : Prop :=
  ∃ l e names, d.place true root = .ok (.present l e) ∧ names ≠ [] ∧ p = root.descend names
    ∧ (d.tree.find? (l ++ names)).any Entry.isFile = true

/-- The path leads somewhere. -/
def Leads (d : Disk) (root : Path) : Prop := ∃ l e, d.place true root = .ok (.present l e)

theorem HoldsFile.leads (h : d.HoldsFile root p) : d.Leads root :=
  let ⟨l, e, _, hroot, _⟩ := h
  ⟨l, e, hroot⟩

theorem isSome_of_isFile {t : Tree} (h : (t.find? l).any Entry.isFile = true) :
    (t.find? l).isSome := by
  cases hf : t.find? l with
  | none => simp [hf] at h
  | some e => rfl

/-- A file is below a directory, and goes on from it by names. -/
theorem HoldsFile.cases (ht : d.tree.Legal) (h : d.HoldsFile root p) :
    ∃ l e names, d.place true root = .ok (.present l e) ∧ d.tree.isDirectory l = true ∧ names ≠ []
      ∧ (∀ n ∈ names, Path.IsName n) ∧ p = root.descend names
      ∧ (d.tree.find? (l ++ names)).any Entry.isFile = true := by
  obtain ⟨l, e, names, hroot, hne, hp, hfile⟩ := h
  have hsome := isSome_of_isFile hfile
  refine ⟨l, e, names, hroot, ht.isDirectory_of_below hne hsome, hne, fun n hn => ?_, hp, hfile⟩
  exact ht.nodes.isName hsome n (List.mem_append_right _ hn)

/-- Whether a path leads to where nothing is below. -/
def isEmptyBelow (d : Disk) (root : Path) : Bool :=
  match d.place true root with
  | .ok (.present l _) => d.tree.isEmptyAt l
  | _ => false

/-- No file is below a path that leads to where nothing is below. -/
theorem not_holdsFile_of_isEmptyBelow (h : d.isEmptyBelow root = true) : ¬ d.HoldsFile root p := by
  rintro ⟨l, e, names, hroot, hne, -, hfile⟩
  have hempty : d.tree.isEmptyAt l = true := by simpa [isEmptyBelow, hroot] using h
  cases names with
  | nil => exact hne rfl
  | cons n names => simp [Tree.find?_below_of_isEmptyAt hempty] at hfile

/-- Files stay below a path as long as they stay, and all that the path goes through. -/
theorem HoldsFile.mono (hp : root.isAbsolute = true) (ht : d.tree.Legal)
    (hk : Passable d.tree d'.tree)
    (hf : ∀ x, (d.tree.find? x).any Entry.isFile = true → (d'.tree.find? x).any Entry.isFile = true)
    (h : d.HoldsFile root p) : d'.HoldsFile root p := by
  obtain ⟨l, e, names, hroot, hdir, hne, -, rfl, hfile⟩ := h.cases ht
  obtain ⟨time, hfind⟩ := Tree.isDirectory_iff.mp (hk.directory l hdir)
  exact ⟨l, _, names, place_keeps hp hroot hk hfind rfl, hne, rfl, hf _ hfile⟩

theorem HoldsFile.keeps (hp : root.isAbsolute = true) (ht : d.tree.Legal)
    (hk : d.tree.Keeps d'.tree) (h : d.HoldsFile root p) : d'.HoldsFile root p := by
  apply h.mono hp ht hk.passable
  intro x hx
  obtain ⟨content, hc⟩ := Tree.isFile_iff_shape.mp hx
  exact Tree.isFile_iff_shape.mpr ⟨content, hk x _ hc⟩

/-! ## Appending -/

/-- A path at which text has been appended: it leads to something that is no directory, which has the
text at its end if it was a file. Elsewhere nothing has changed, but for the time of a directory in
which a file was made. -/
structure Appended (d d' : Disk) (path : Path) (bytes : Bytes) (x : Location) (e : Entry) : Prop where
  place : d'.place true path = .ok (.present x e)
  noDirectory : e.isDirectory = false
  shape : ∀ y, y ≠ x → d'.tree.shape y = d.tree.shape y
  find? : ∀ e₀, d.place true path = .ok (.present x e₀) →
    ∀ y, y ≠ x → d'.tree.find? y = d.tree.find? y
  content : ∀ old, d.tree.shape x = some (.file old 0) → e.timeless = .file (old ++ bytes) 0
  onward : Passable d.tree d'.tree
  back : Passable d'.tree d.tree

theorem appended_of_append (hd : d.Legal) (hpath : path.Straight) {bytes : Bytes} {now : Int}
    (h : d.append path bytes now = .ok d') :
    ∃ x e, Appended d d' path bytes x e ∧ (e.isFile = true ∨ d' = d) := by
  have habs := hpath.isAbsolute
  rcases append_ok h with ⟨dir, n, hpl, rfl⟩ | ⟨x, content, time, hpl, rfl⟩ | ⟨x, e, hpl, he, hno, rfl⟩
  · obtain ⟨hdir, hfree, -⟩ := place_absent hd.tree hpath hpl
    have hsome := Tree.isSome_find?_of_isDirectory hdir
    have hkeeps := Tree.keeps_add hsome hfree (.file bytes now) now
    have hshape : ∀ y, y ≠ dir ++ [n] →
        (d.tree.add (dir ++ [n]) (.file bytes now) now).shape y = d.tree.shape y := fun y hy => by
      rw [Tree.shape_add hsome, if_neg hy]
    have hnew := Tree.find?_add hsome n (.file bytes now) now (dir ++ [n])
    rw [if_pos rfl] at hnew
    refine ⟨dir ++ [n], .file bytes now, ⟨place_filled habs hpl hkeeps.passable hnew rfl, rfl, hshape,
      fun e₀ hpl' => by simp [hpl] at hpl', fun old hold => ?_, hkeeps.passable,
      Tree.passable_of_changed (fun y hy => (hshape y hy).symm) fun e he => ?_⟩, .inl rfl⟩
    · simp [Tree.shape_eq_none_iff.mpr hfree] at hold
    · rw [tree_withTree, Tree.shape_of_find? hnew, Option.some.injEq] at he
      simp [← he, Entry.isDirectory, Entry.isLink]
  · have hold := place_present habs hpl
    have hparent := hd.tree.isSome_find?_dropLast (l := x) (by simp [hold])
    have hfind := fun y => Tree.find?_put hparent (.file (content ++ bytes) now) y
    have hshape : ∀ y, y ≠ x →
        (d.tree.put x (.file (content ++ bytes) now)).shape y = d.tree.shape y := fun y hy => by
      rw [Tree.shape_put hparent, if_neg hy]
    have hnew := hfind x
    rw [if_pos rfl] at hnew
    have honward := Tree.passable_put_file hparent hold (content ++ bytes) now
    refine ⟨x, .file (content ++ bytes) now, ⟨place_keeps habs hpl honward hnew rfl, rfl, hshape,
      fun e₀ _ y hy => by rw [tree_withTree, hfind, if_neg hy], fun old hx => ?_, honward,
      Tree.passable_of_changed (fun y hy => (hshape y hy).symm) fun e he => ?_⟩, .inl rfl⟩
    · rw [Tree.shape_of_find? hold] at hx
      simp_all
    · rw [tree_withTree, Tree.shape_of_find? hnew, Option.some.injEq] at he
      simp [← he, Entry.isDirectory, Entry.isLink]
  · have hfind := place_present habs hpl
    refine ⟨x, e, ⟨hpl, he, fun _ _ => rfl, fun _ _ _ _ => rfl, fun old hx => ?_, .refl _, .refl _⟩,
      .inr rfl⟩
    rw [Tree.shape_of_find? hfind, Option.some.injEq] at hx
    rw [← Entry.isFile_timeless, hx] at hno
    simp [Entry.isFile] at hno

/-- Text that is appended at one path makes a file below another one. -/
def MakesFile (d : Disk) (path root p : Path) : Prop :=
  ∃ dir n l e names, d.place true path = .ok (.absent dir n)
    ∧ d.place true root = .ok (.present l e) ∧ names ≠ [] ∧ p = root.descend names
    ∧ l ++ names = dir ++ [n]

/-- Text that is appended where nothing is makes one file, and nothing else. -/
theorem holdsFile_append_of_absent (hd : d.Legal) (hroot : root.isAbsolute = true)
    (hpath : path.Straight) {dir : Location} {n : Text} {bytes : Bytes} {now : Int}
    (hpl : d.place true path = .ok (.absent dir n)) (hd' : d'.Legal)
    (htree : d'.tree = d.tree.add (dir ++ [n]) (.file bytes now) now) :
    d'.HoldsFile root p ↔ d.HoldsFile root p ∨ d.MakesFile path root p := by
  obtain ⟨hdir, hfree, -, -⟩ := place_absent hd.tree hpath hpl
  have hshape : ∀ x, d'.tree.shape x
      = if x = dir ++ [n] then some (.file bytes 0) else d.tree.shape x := fun x => by
    rw [htree, Tree.shape_add (Tree.isSome_find?_of_isDirectory hdir)]
    rfl
  have hkeeps : d.tree.Keeps d'.tree := by
    rw [htree]
    exact Tree.keeps_add (Tree.isSome_find?_of_isDirectory hdir) hfree _ now
  -- the new file lets nothing through, so that all ways in the new tree are ways in the old one
  have hback : Passable d'.tree d.tree :=
    Tree.passable_of_changed (fun x hx => by rw [hshape, if_neg hx]) fun e he => by
      rw [hshape, if_pos rfl, Option.some.injEq] at he
      simp [← he, Entry.isDirectory, Entry.isLink]
  constructor
  · intro h
    obtain ⟨l, e, names, hpl', hdir', hne, -, rfl, hfile⟩ := h.cases hd'.tree
    obtain ⟨time, hfind⟩ := Tree.isDirectory_iff.mp (hback.directory l hdir')
    have hplace := place_keeps hroot hpl' hback hfind rfl
    by_cases hnew : l ++ names = dir ++ [n]
    · exact .inr ⟨dir, n, l, _, names, hpl, hplace, hne, rfl, hnew⟩
    · refine .inl ⟨l, _, names, hplace, hne, rfl, ?_⟩
      rw [Tree.isFile_iff_shape, hshape, if_neg hnew] at hfile
      exact Tree.isFile_iff_shape.mpr hfile
  · rintro (h | ⟨dir', n', l, e, names, hpl', hplace, hne, rfl, hnew⟩)
    · exact h.keeps hroot hd.tree hkeeps
    · obtain ⟨rfl, rfl⟩ : dir = dir' ∧ n = n' := by simpa [hpl] using hpl'
      obtain ⟨e', hplace'⟩ := place_of_keeps hd.tree hroot hplace hkeeps
      refine ⟨l, e', names, hplace', hne, rfl, ?_⟩
      exact Tree.isFile_iff_shape.mpr ⟨bytes, by rw [hshape, if_pos hnew]⟩

/-- What is put in the place of a file as a file leaves the files below a path as they are. -/
theorem holdsFile_put (hd : d.Legal) (hroot : root.isAbsolute = true) (hd' : d'.Legal) {x : Location}
    {content content' : Bytes} {time time' : Int} (hx : d.tree.find? x = some (.file content time))
    (htree : d'.tree = d.tree.put x (.file content' time')) :
    d'.HoldsFile root p ↔ d.HoldsFile root p := by
  have hparent := hd.tree.isSome_find?_dropLast (l := x) (by simp [hx])
  have hshape : ∀ y, d'.tree.shape y = if y = x then some (.file content' 0) else d.tree.shape y :=
    fun y => by
      rw [htree, Tree.shape_put hparent]
      rfl
  have hold : d.tree.shape x = some (.file content 0) := Tree.shape_of_find? hx
  have hpass : Passable d.tree d'.tree :=
    Tree.passable_of_changed (x := x) (fun y hy => by rw [hshape, if_neg hy]) fun e he => by
      rw [hold, Option.some.injEq] at he
      simp [← he, Entry.isDirectory, Entry.isLink]
  have hback : Passable d'.tree d.tree :=
    Tree.passable_of_changed (x := x) (fun y hy => by rw [hshape, if_neg hy]) fun e he => by
      rw [hshape, if_pos rfl, Option.some.injEq] at he
      simp [← he, Entry.isDirectory, Entry.isLink]
  have hfile : ∀ y, (d'.tree.find? y).any Entry.isFile = true
      ↔ (d.tree.find? y).any Entry.isFile = true := fun y => by
    rw [Tree.isFile_iff_shape, Tree.isFile_iff_shape, hshape]
    by_cases hy : y = x <;> simp [hy, hold]
  -- directories, links and files are at the same locations in both trees
  constructor
  · exact HoldsFile.mono hroot hd'.tree hback fun y => (hfile y).mp
  · exact HoldsFile.mono hroot hd.tree hpass fun y => (hfile y).mpr

/-- Appending adds to the files below a path at most the one that is appended to. -/
theorem holdsFile_append (hd : d.Legal) (hroot : root.isAbsolute = true) (hpath : path.Straight)
    {bytes : Bytes} {now : Int} (h : d.append path bytes now = .ok d') :
    d'.HoldsFile root p ↔ d.HoldsFile root p ∨ d.MakesFile path root p := by
  have hd' := hd.append hpath h
  rcases append_ok h with ⟨dir, n, hpl, rfl⟩ | hthere
  · exact holdsFile_append_of_absent hd hroot hpath hpl hd' rfl
  -- where something is already, no file is made
  have hno : ¬ d.MakesFile path root p := by
    rintro ⟨dir, n, l, e', names, habsent, -⟩
    rcases hthere with ⟨x, content, time, hpl, -⟩ | ⟨x, e, hpl, -⟩ <;> simp [hpl] at habsent
  rw [or_iff_left hno]
  rcases hthere with ⟨x, content, time, hpl, rfl⟩ | ⟨x, e, -, -, -, rfl⟩
  · exact holdsFile_put hd hroot hd' (place_present hpath.isAbsolute hpl) rfl
  · exact Iff.rfl

end Disk

end Provenance
