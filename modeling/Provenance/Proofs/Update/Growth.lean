/-
What an update adds to a tree.

Before it publishes anything an update only makes things: directories, and empty
files in them. `Grown` compares the tree with the one that the update found: all
that was there is there still, and beside it there is what was made and nothing
else. It says nothing of times, which move in many places.

What was made has to be found again by the path that it was made under. A path can
go through directories that the update made before, and through links, so that it
leads to its location only while those directories are there; `Stock` keeps for each
thing made that the directories made before it are enough.
-/
import Mathlib.Data.List.Forall2
import Provenance.Proofs.Store

set_option autoImplicit false

namespace Provenance.Update

open Disk

/-! ## Things made -/

/-- Something that an update has made: what it is called when it cannot be taken away, the path that
it was made under, and where it is. -/
structure Made where
  name : Text
  path : Path
  location : Location
  directory : Bool

/-- What is made, times aside: a directory or an empty file. -/
def Made.entry (m : Made) : Entry := if m.directory then .directory 0 else .file [] 0

/-- A tree that an update has come to from another one: it has what that tree had, and what was
made. -/
structure Grown (before after : Tree) (made : List Made) : Prop where
  legal : after.Legal
  keeps : before.Keeps after
  fresh : ∀ m ∈ made, before.find? m.location = none
  shape : ∀ m ∈ made, after.shape m.location = some m.entry
  only : ∀ l, before.find? l = none → (after.find? l).isSome → ∃ m ∈ made, m.location = l
  nodup : (made.map Made.location).Nodup

variable {before after t : Tree} {made made' : List Made} {m : Made} {dir : Location} {n : Text}

theorem Grown.refl (h : before.Legal) : Grown before before [] :=
  ⟨h, .refl _, by simp, by simp, fun l hl hs => by simp [hl] at hs, by simp⟩

theorem Grown.perm (h : Grown before after made) (hp : made.Perm made') : Grown before after made' where
  legal := h.legal
  keeps := h.keeps
  fresh m hm := h.fresh m (hp.mem_iff.mpr hm)
  shape m hm := h.shape m (hp.mem_iff.mpr hm)
  only l hl hs :=
    let ⟨m, hm, heq⟩ := h.only l hl hs
    ⟨m, hp.mem_iff.mp hm, heq⟩
  nodup := (hp.map _).nodup h.nodup

/-- Times do not matter. -/
theorem Grown.of_shape (h : Grown before after made) (ht : t.Legal)
    (hs : ∀ l, t.shape l = after.shape l) : Grown before t made where
  legal := ht
  keeps l e hl := by rw [hs]; exact h.keeps l e hl
  fresh := h.fresh
  shape m hm := by rw [hs]; exact h.shape m hm
  only l hl hsome := h.only l hl (by
    rw [Tree.isSome_iff_shape, ← hs, ← Tree.isSome_iff_shape]
    exact hsome)
  nodup := h.nodup

/-- A location that is free is none of those of the things made. -/
theorem Grown.location_ne (h : Grown before after made) {l : Location} (hl : after.find? l = none) :
    ∀ m ∈ made, m.location ≠ l := by
  rintro m hm rfl
  have hshape := h.shape m hm
  rw [Tree.shape_eq_none_iff.mpr hl] at hshape
  simp at hshape

/-- One more thing is made. -/
theorem Grown.add (h : Grown before after made) {e : Entry} {now : Int}
    (hdir : after.isDirectory dir = true) (hfree : after.find? (dir ++ [n]) = none)
    (hlegal : (after.add (dir ++ [n]) e now).Legal) (hm : m.location = dir ++ [n])
    (he : e.timeless = m.entry) : Grown before (after.add (dir ++ [n]) e now) (m :: made) := by
  have hshape := Tree.shape_add (Tree.isSome_find?_of_isDirectory hdir) n e now
  -- what is free now was free before, since everything is kept
  have hnew : before.find? (dir ++ [n]) = none := by
    rcases hb : before.find? (dir ++ [n]) with _ | e'
    · rfl
    · have hk := h.keeps _ _ (Tree.shape_of_find? hb)
      rw [Tree.shape_eq_none_iff.mpr hfree] at hk
      simp at hk
  refine ⟨hlegal, h.keeps.trans (Tree.keeps_add (Tree.isSome_find?_of_isDirectory hdir) hfree e now),
    fun x hx => ?_, fun x hx => ?_, fun l hl hs => ?_, ?_⟩
  · rcases List.mem_cons.mp hx with rfl | hx
    · rw [hm]; exact hnew
    · exact h.fresh x hx
  · rw [hshape]
    rcases List.mem_cons.mp hx with rfl | hx
    · rw [if_pos hm, he]
    · rw [if_neg (h.location_ne hfree x hx)]
      exact h.shape x hx
  · by_cases heq : l = dir ++ [n]
    · exact ⟨m, List.mem_cons_self .., hm.trans heq.symm⟩
    · rw [Tree.isSome_iff_shape, hshape, if_neg heq, ← Tree.isSome_iff_shape] at hs
      obtain ⟨x, hx, hloc⟩ := h.only l hl hs
      exact ⟨x, List.mem_cons_of_mem _ hx, hloc⟩
  · rw [List.map_cons, List.nodup_cons, hm]
    refine ⟨fun hmem => ?_, h.nodup⟩
    obtain ⟨x, hx, hloc⟩ := List.mem_map.mp hmem
    exact h.location_ne hfree x hx hloc

/-- Something made is taken away again. -/
theorem Grown.remove (h : Grown before after (m :: made)) (ht : t.Legal)
    (hs : ∀ l, t.shape l = if l = m.location then none else after.shape l) :
    Grown before t made := by
  have hfresh := h.fresh m (List.mem_cons_self ..)
  have hnodup := List.nodup_cons.mp (List.map_cons ▸ h.nodup)
  refine ⟨ht, fun l e hl => ?_, fun x hx => h.fresh x (List.mem_cons_of_mem _ hx), fun x hx => ?_,
    fun l hl hsome => ?_, hnodup.2⟩
  · rw [hs, if_neg]
    · exact h.keeps l e hl
    · rintro rfl
      rw [Tree.shape_eq_none_iff.mpr hfresh] at hl
      simp at hl
  · rw [hs, if_neg]
    · exact h.shape x (List.mem_cons_of_mem _ hx)
    · intro heq
      exact hnodup.1 (heq ▸ List.mem_map_of_mem hx)
  · rw [Tree.isSome_iff_shape, hs] at hsome
    by_cases heq : l = m.location
    · rw [if_pos heq] at hsome
      exact absurd rfl hsome
    · rw [if_neg heq, ← Tree.isSome_iff_shape] at hsome
      obtain ⟨x, hx, hloc⟩ := h.only l hl hsome
      rcases List.mem_cons.mp hx with rfl | hx
      · exact absurd hloc.symm heq
      · exact ⟨x, hx, hloc⟩

/-- A directory that was made is there. -/
theorem Grown.isDirectory (h : Grown before after made) (hm : m ∈ made) (hd : m.directory = true) :
    after.isDirectory m.location = true := by
  rw [Tree.isDirectory_iff_shape, h.shape m hm, Made.entry, hd]
  rfl

/-- However it is told what was made, it is as much. -/
theorem Grown.length_eq (h : Grown before after made) (h' : Grown before after made') :
    made.length = made'.length := by
  have hsub : ∀ {xs ys : List Made}, Grown before after xs → Grown before after ys →
      ∀ l ∈ xs.map Made.location, l ∈ ys.map Made.location := by
    -- what one list tells of is there and is new, so the other one tells of it too
    intro xs ys hx hy l hl
    obtain ⟨m, hm, rfl⟩ := List.mem_map.mp hl
    have hsome : (after.find? m.location).isSome :=
      Tree.isSome_iff_shape.mpr (by simp [hx.shape m hm])
    obtain ⟨y, hmy, hloc⟩ := hy.only _ (hx.fresh m hm) hsome
    exact hloc ▸ List.mem_map_of_mem hmy
  have hperm := (List.perm_ext_iff_of_nodup h.nodup h'.nodup).mpr fun l => ⟨hsub h h' l, hsub h' h l⟩
  simpa using hperm.length_eq

/-- What is somewhere was there before or was made. -/
theorem Grown.cases (h : Grown before after made) {l : Location} {e : Entry}
    (hl : after.shape l = some e) :
    before.shape l = some e ∨ ∃ m ∈ made, m.location = l ∧ m.entry = e := by
  rcases hb : before.find? l with _ | e'
  · have hsome : (after.find? l).isSome := Tree.isSome_iff_shape.mpr (by simp [hl])
    obtain ⟨m, hm, rfl⟩ := h.only l hb hsome
    rw [h.shape m hm] at hl
    exact .inr ⟨m, hm, rfl, Option.some.inj hl⟩
  · have hb' := Tree.shape_of_find? hb
    have hafter := h.keeps l _ hb'
    rw [hl] at hafter
    rw [hb', ← Option.some.inj hafter]
    exact .inl rfl

/-- Whatever can be gone through in the tree can be gone through in one that keeps what was there and
has the directories made. -/
theorem Grown.passable (h : Grown before after made) (hk : before.Keeps t)
    (hd : ∀ m ∈ made, m.directory = true → t.isDirectory m.location = true) :
    Passable after t := by
  constructor
  · intro l hl
    rcases h.cases (Tree.isDirectory_iff_shape.mp hl) with hold | ⟨m, hm, rfl, hentry⟩
    · exact Tree.isDirectory_iff_shape.mpr (hk l _ hold)
    · apply hd m hm
      unfold Made.entry at hentry
      split at hentry
      · assumption
      · simp at hentry
  · intro l p hl
    rcases h.cases (Tree.link_iff_shape.mp hl) with hold | ⟨m, -, -, hentry⟩
    · exact Tree.link_iff_shape.mpr (hk l _ hold)
    · -- no link is ever made
      unfold Made.entry at hentry
      split at hentry <;> simp at hentry

/-! ## Found again -/

/-- The path that a thing was made under leads to it in every tree that keeps what was there and has
the given directories. -/
def Lasting (before : Tree) (dirs : List Made) (m : Made) : Prop :=
  ∀ t : Tree, t.Legal → before.Keeps t → (∀ x ∈ dirs, t.isDirectory x.location = true) →
    LeadsTo t m.path m.location

/-- Each of some directories, the latest first, can be found by means of those before it. -/
def Chained (before : Tree) : List Made → Prop
  | [] => True
  | m :: earlier => Lasting before earlier m ∧ Chained before earlier

theorem Lasting.mono {dirs dirs' : List Made} (h : Lasting before dirs m) (hs : dirs ⊆ dirs') :
    Lasting before dirs' m := fun t ht hk hd => h t ht hk fun x hx => hd x (hs hx)

theorem Chained.lasting {dirs : List Made} (h : Chained before dirs) (hm : m ∈ dirs) :
    Lasting before dirs m := by
  -- the directories before it are among those that are there
  induction dirs with
  | nil => simp at hm
  | cons x earlier ih =>
    rcases List.mem_cons.mp hm with rfl | hm
    · exact h.1.mono (List.subset_cons_self ..)
    · exact (ih h.2 hm).mono (List.subset_cons_self ..)

/-- What is made where nothing was can be found again. -/
theorem Grown.lasting (h : Grown before after made) {d : Disk} (hd : d.tree = after) {p : Path}
    (hp : p.isAbsolute = true) (hn : n ≠ Path.upName)
    (hpl : d.place false (p.child n) = .ok (.absent dir n)) {dirs : List Made}
    (hdirs : ∀ x ∈ made, x.directory = true → x ∈ dirs) (hm : m.path = p.child n)
    (hl : m.location = dir ++ [n]) : Lasting before dirs m := by
  subst hd
  intro t ht hk hall
  rw [hm, hl]
  exact leadsTo_of_absent h.legal hp hn hpl ht
    (h.passable hk fun x hx hx' => hall x (hdirs x hx hx'))

/-- What an update has made so far, directories and files apart, the latest first. -/
structure Stock (before after : Tree) (dirs files : List Made) : Prop where
  grown : Grown before after (files ++ dirs)
  chained : Chained before dirs
  lasting : ∀ m ∈ files, Lasting before dirs m
  directories : ∀ m ∈ dirs, m.directory = true ∧ m.name = m.path.text
  files : ∀ m ∈ files, m.directory = false

variable {d : Disk} {p : Path} {dirs files : List Made}

/-- The directories made are there. -/
theorem Stock.isDirectory (h : Stock before after dirs files) {x : Made} (hx : x ∈ dirs) :
    after.isDirectory x.location = true :=
  h.grown.isDirectory (List.mem_append_right _ hx) (h.directories x hx).1

/-- What was made is what its path leads to. -/
theorem Stock.leadsTo (h : Stock before after dirs files) {x : Made} (hx : x ∈ files ++ dirs) :
    LeadsTo after x.path x.location := by
  refine (?_ : Lasting before dirs x) after h.grown.legal h.grown.keeps fun _ hy => h.isDirectory hy
  -- a file needs all the directories, a directory those made before it
  rcases List.mem_append.mp hx with hx | hx
  · exact h.lasting x hx
  · exact h.chained.lasting hx

theorem Stock.refl (h : before.Legal) : Stock before before [] [] :=
  ⟨.refl h, trivial, by simp, by simp, by simp⟩

theorem Stock.of_shape (h : Stock before after dirs files) (ht : t.Legal)
    (hs : ∀ l, t.shape l = after.shape l) : Stock before t dirs files :=
  ⟨h.grown.of_shape ht hs, h.chained, h.lasting, h.directories, h.files⟩

/-- What is known of a directory or a file to be made where a path leads to nothing. -/
theorem Stock.absent (h : Stock before d.tree dirs files) (hp : p.Straight)
    (hpl : d.place false p = .ok (.absent dir n)) :
    Path.IsName n ∧ p = p.parent.child n ∧ d.tree.isDirectory dir = true
      ∧ d.tree.find? (dir ++ [n]) = none
      ∧ ∀ m : Made, m.path = p → m.location = dir ++ [n] → Lasting before dirs m := by
  obtain ⟨hdir, hfree, hn, -⟩ := place_absent h.grown.legal hp hpl
  rcases hp.cases with hnil | ⟨k, hk, hpar, heq⟩
  · -- the root is there
    have hroot := hasEntry_root h.grown.legal hp hnil
    rw [hasEntry_of_absent (place_follow_absent hp.isAbsolute hpl)] at hroot
    simp at hroot
  · have hpl' := hpl
    rw [heq] at hpl'
    obtain rfl := eq_of_place_child_absent h.grown.legal hpar.isAbsolute hk.2 hpl'
    refine ⟨hn, heq, hdir, hfree, fun m hm hl => ?_⟩
    refine h.grown.lasting rfl hpar.isAbsolute hk.2 hpl' (fun x hx hx' => ?_) (hm.trans heq) hl
    rcases List.mem_append.mp hx with hx | hx
    · simp [h.files x hx] at hx'
    · exact hx

/-- A directory is made. -/
theorem Stock.makeDirectory (h : Stock before d.tree dirs files) (hp : p.Straight)
    (hpl : d.place false p = .ok (.absent dir n)) (now : Int) :
    Stock before (d.tree.add (dir ++ [n]) (.directory now) now)
      (⟨p.text, p, dir ++ [n], true⟩ :: dirs) files := by
  obtain ⟨hn, -, hdir, hfree, hlast⟩ := h.absent hp hpl
  have hlegal := h.grown.legal.add hdir hn hfree (e := .directory now) (by simp) now
  have hgrown := h.grown.add (m := ⟨p.text, p, dir ++ [n], true⟩) (e := .directory now) hdir hfree
    hlegal rfl rfl
  refine ⟨hgrown.perm List.perm_middle.symm, ⟨hlast _ rfl rfl, h.chained⟩, fun m hm => ?_,
    fun m hm => ?_, h.files⟩
  · exact (h.lasting m hm).mono (List.subset_cons_self ..)
  · rcases List.mem_cons.mp hm with rfl | hm
    · exact ⟨rfl, rfl⟩
    · exact h.directories m hm

/-- A file is made. -/
theorem Stock.createFile (h : Stock before d.tree dirs files) (hp : p.Straight)
    (hpl : d.place false p = .ok (.absent dir n)) (name : Text) (now : Int) :
    Stock before (d.tree.add (dir ++ [n]) (.file [] now) now) dirs
      (⟨name, p, dir ++ [n], false⟩ :: files) := by
  obtain ⟨hn, -, hdir, hfree, hlast⟩ := h.absent hp hpl
  have hlegal := h.grown.legal.add hdir hn hfree (e := .file [] now) (by simp) now
  have hgrown := h.grown.add (m := ⟨name, p, dir ++ [n], false⟩) (e := .file [] now) hdir hfree
    hlegal rfl rfl
  refine ⟨hgrown, h.chained, fun m hm => ?_, h.directories, fun m hm => ?_⟩
  · rcases List.mem_cons.mp hm with rfl | hm
    · exact hlast _ rfl rfl
    · exact h.lasting m hm
  · rcases List.mem_cons.mp hm with rfl | hm
    · rfl
    · exact h.files m hm

end Provenance.Update
