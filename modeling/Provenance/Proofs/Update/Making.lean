/-
What the calls of an update make.

Directories are made one after the other, from the outermost on. If one of them
cannot be made, those before it stay, and the call that made them fails without
having told which they are. That happens in one way alone: the first can be made,
and a name further on is too long. All other failures come before anything is made.
-/
import Provenance.Proofs.Update.Growth

set_option autoImplicit false

namespace Provenance.Update

open Action Host Disk

variable {before : Tree} {dirs files : List Made} {h : Host} {path : Path}

/-! ## Directories -/

/-- Making the directories of a path stops halfway: the outermost that is missing can be made, and a
name after it is too long. -/
def HalfMade (h : Host) (path : Path) : Prop :=
  h.fault? .createDirectories path = none ∧ isOverlong path = false
    ∧ ∃ top names dir n, path = top.descend names
      ∧ h.disk.place false top = .ok (.absent dir n) ∧ ∃ m ∈ names, IsLong m

/-- Where no name is too long, nothing is half made. -/
theorem not_halfMade_of_short {h : Host} {path : Path} (hshort : ∀ n ∈ path.names, ¬ IsLong n) :
    ¬ HalfMade h path := by
  rintro ⟨-, -, top, names, dir, n, rfl, -, m, hm, hlong⟩
  exact hshort m (List.mem_append_right _ hm) hlong

/-- A directory with nothing in it takes a directory of any name that is not too long. -/
theorem place_child_of_empty {t : Tree} {d : Disk} (hd : d.tree = t) (ht : t.Legal) {q : Path}
    (hq : q.isAbsolute = true) {n : Text} (hn : n ≠ Path.upName)
    (hshort : isOverlong (q.child n) = false) {l : Location}
    (hpl : ∃ e, d.place true q = .ok (.present l e)) (hdir : t.isDirectory l = true)
    (hempty : t.isEmptyAt l = true) :
    (IsLong n ∧ d.place false (q.child n) = .error .nameTooLong)
      ∨ (¬ IsLong n ∧ d.place false (q.child n) = .ok (.absent l n)) := by
  subst hd
  obtain ⟨e, hpl⟩ := hpl
  rw [place_child ht hq hn, if_neg (by simp [hshort]), hpl]
  simp only [stepFrom, lastStep]
  rw [if_neg (by simp [hdir])]
  by_cases hlong : IsLong n
  · exact .inl ⟨hlong, if_pos hlong⟩
  · rw [if_neg hlong]
    have hfree := Tree.find?_below_of_isEmptyAt hempty n []
    rw [hfree]
    exact .inr ⟨hlong, rfl⟩

/-- Where a search says that a name is too long, no directory is made, and there is none. -/
theorem runOn_makeDirectory_long (hp : path.isAbsolute = true)
    (hpl : h.disk.place false path = .error .nameTooLong) :
    ∃ f, (Host.makeDirectory path).runOn h = (.error f, h) := by
  have hmake : h.disk.makeDirectory path h.clock.now = .error .nameTooLong := by
    rw [Disk.makeDirectory, hpl]
  have hno : h.disk.hasDirectory path = .error .nameTooLong := by
    rw [hasDirectory, holds, stat, place_follow_error hp hpl]
    rfl
  rw [runOn_makeDirectory_error hmake, hno]
  exact ⟨_, rfl⟩

/-- A directory that was just made is what its path leads to, and nothing is in it. -/
theorem place_made {q : Path} {n : Text} {l : Location}
    (hst : Stock before h.disk.tree dirs files) (hq : q.Straight) (hn : Path.IsName n)
    (hpl : h.disk.place false (q.child n) = .ok (.absent l n)) (now : Int) {d : Disk}
    (hd : d.tree = h.disk.tree.add (l ++ [n]) (.directory now) now) :
    (∃ e, d.place true (q.child n) = .ok (.present (l ++ [n]) e))
      ∧ d.tree.isDirectory (l ++ [n]) = true ∧ d.tree.isEmptyAt (l ++ [n]) = true := by
  obtain ⟨-, -, hdir, hfree, -⟩ := hst.absent (hq.child hn) hpl
  have hmade := hst.makeDirectory (hq.child hn) hpl now
  have hshape := Tree.shape_add (Tree.isSome_find?_of_isDirectory hdir) n (.directory now) now
  rw [← hd] at hmade hshape
  have hthere : d.tree.isDirectory (l ++ [n]) = true := by
    rw [Tree.isDirectory_iff_shape, hshape, if_pos rfl]
    rfl
  -- it is found by its path, as everything that was made is, and its location was free before
  refine ⟨?_, hthere, Tree.isEmptyAt_of_find?_none fun k => ?_⟩
  · have hleads := hmade.chained.1 d.tree hmade.grown.legal hmade.grown.keeps fun x hx =>
      hmade.isDirectory (List.mem_cons_of_mem _ hx)
    obtain ⟨time, hfind⟩ := Tree.isDirectory_iff.mp hthere
    exact ⟨_, place_follow_present (p := q.child n) hq.isAbsolute (hleads d rfl _ hfind) rfl⟩
  · rw [← Tree.shape_eq_none_iff, hshape, if_neg (by simp), Tree.shape_eq_none_iff]
    exact Tree.find?_append_of_none hfree [k]

/-- In an empty directory directories are made below one another up to the first whose name is too
long. -/
theorem runOn_onward {q : Path} {names : List Text} {l : Location}
    (hst : Stock before h.disk.tree dirs files) (hq : q.Straight)
    (hnames : ∀ n ∈ names, Path.IsName n) (hshort : isOverlong (q.descend names) = false)
    (hpl : ∃ e, h.disk.place true q = .ok (.present l e))
    (hdir : h.disk.tree.isDirectory l = true) (hempty : h.disk.tree.isEmptyAt l = true) :
    ((∀ n ∈ names, ¬ IsLong n) ∧ ∃ h' new,
        ((Store.onward q names).forM Host.makeDirectory).runOn h = (.ok ⟨⟩, h')
          ∧ Stock before h'.disk.tree (new ++ dirs) files
          ∧ (Store.onward q names).reverse = new.map Made.path)
      ∨ ((∃ n ∈ names, IsLong n) ∧ ∃ f h' new,
        ((Store.onward q names).forM Host.makeDirectory).runOn h = (.error f, h')
          ∧ Stock before h'.disk.tree (new ++ dirs) files) := by
  -- each directory is made in the one before it, which is empty, so that only a name that is too long
  -- can stop it; what is made is noted at the front
  induction names generalizing h q dirs l with
  | nil => exact .inl ⟨by simp, h, [], rfl, hst, rfl⟩
  | cons n names ih =>
    have hn := hnames n (List.mem_cons_self ..)
    rw [Path.descend_cons] at hshort
    have hshort' : isOverlong (q.child n) = false := Bool.eq_false_iff.mpr fun hover => by
      simp [isOverlong_descend (p := q.child n) hq.isAbsolute names hover] at hshort
    rcases place_child_of_empty rfl hst.grown.legal hq.isAbsolute hn.2 hshort' hpl hdir hempty
      with ⟨hlong, hchild⟩ | ⟨hok, hchild⟩
    · have habs : (q.child n).isAbsolute = true := hq.isAbsolute
      obtain ⟨f, hf⟩ := runOn_makeDirectory_long habs hchild
      exact .inr ⟨⟨n, List.mem_cons_self .., hlong⟩, f, h, [], runOn_bind_error hf, hst⟩
    have hmade := hst.makeDirectory (hq.child hn) hchild h.clock.now
    have hrun := runOn_makeDirectory_ok (makeDirectory_of_absent hchild h.clock.now)
    obtain ⟨hpl', hdir', hempty'⟩ := place_made hst hq hn hchild h.clock.now
      (d := h.disk.withTree (h.disk.tree.add (l ++ [n]) (.directory h.clock.now) h.clock.now)) rfl
    rcases ih (h := { h with disk := _, clock := h.clock.next }) hmade (hq.child hn)
      (fun k hk => hnames k (List.mem_cons_of_mem _ hk)) hshort hpl' hdir' hempty'
      with ⟨hall, h', new, hrest, hst', hpaths⟩ | ⟨hlong, f, h', new, hrest, hst'⟩
    · refine .inl ⟨fun k hk => ?_, h', new ++ [⟨(q.child n).text, q.child n, l ++ [n], true⟩],
        (runOn_bind_ok hrun).trans hrest, by simpa using hst', ?_⟩
      · rcases List.mem_cons.mp hk with rfl | hk
        · exact hok
        · exact hall k hk
      · rw [Store.onward, List.reverse_cons, hpaths, List.map_append]
        rfl
    · obtain ⟨k, hk, hklong⟩ := hlong
      exact .inr ⟨⟨k, List.mem_cons_of_mem _ hk, hklong⟩, f, h',
        new ++ [⟨(q.child n).text, q.child n, l ++ [n], true⟩], (runOn_bind_ok hrun).trans hrest,
        by simpa using hst'⟩

/-- The outermost directory that is missing decides: if it can be made, those after it are made up to
the first whose name is too long, and if it cannot, none is. -/
theorem runOn_missing {q : Path} {n : Text} {names : List Text}
    (hst : Stock before h.disk.tree dirs files) (hq : q.Straight) (hn : Path.IsName n)
    (hnames : ∀ m ∈ names, Path.IsName m) (hshort : isOverlong (q.descend (n :: names)) = false)
    (hno : h.disk.hasEntry (q.child n) = .ok false) :
    ((∃ dir, h.disk.place false (q.child n) = .ok (.absent dir n))
      ∧ (((∀ m ∈ names, ¬ IsLong m) ∧ ∃ h' new,
            ((Store.onward q (n :: names)).forM Host.makeDirectory).runOn h = (.ok ⟨⟩, h')
              ∧ Stock before h'.disk.tree (new ++ dirs) files
              ∧ (Store.onward q (n :: names)).reverse = new.map Made.path)
          ∨ ((∃ m ∈ names, IsLong m) ∧ ∃ f h' new,
            ((Store.onward q (n :: names)).forM Host.makeDirectory).runOn h = (.error f, h')
              ∧ new ≠ [] ∧ Stock before h'.disk.tree (new ++ dirs) files)))
    ∨ ((∀ dir, h.disk.place false (q.child n) ≠ .ok (.absent dir n)) ∧ ∃ f,
        ((Store.onward q (n :: names)).forM Host.makeDirectory).runOn h = (.error f, h)) := by
  rcases hc : h.disk.makeDirectory (q.child n) h.clock.now with er | d
  · refine .inr ⟨fun dir hpl => ?_, ?_⟩
    · rw [makeDirectory_of_absent hpl] at hc
      simp at hc
    · have hrun := runOn_makeDirectory_error hc
      rw [hasDirectory_of_hasEntry_false hno] at hrun
      exact ⟨_, runOn_bind_error hrun⟩
  -- the outermost is made, and from there on the last lemma tells how far it goes
  obtain ⟨dir, k, hpl, rfl⟩ := makeDirectory_ok hc
  obtain rfl := eq_of_place_child_absent hst.grown.legal hq.isAbsolute hn.2 hpl
  refine .inl ⟨⟨dir, hpl⟩, ?_⟩
  have hrun := runOn_makeDirectory_ok hc
  have hmade := hst.makeDirectory (hq.child hn) hpl h.clock.now
  obtain ⟨hpl', hdir', hempty'⟩ := place_made hst hq hn hpl h.clock.now
    (d := h.disk.withTree (h.disk.tree.add (dir ++ [k]) (.directory h.clock.now) h.clock.now)) rfl
  rw [Path.descend_cons] at hshort
  rcases runOn_onward (h := { h with disk := _, clock := h.clock.next }) hmade (hq.child hn) hnames
    hshort hpl' hdir' hempty'
    with ⟨hall, h', new, hrest, hst', hpaths⟩ | ⟨hlong, f, h', new, hrest, hst'⟩
  · refine .inl ⟨hall, h', new ++ [⟨(q.child k).text, q.child k, dir ++ [k], true⟩],
      (runOn_bind_ok hrun).trans hrest, by simpa using hst', ?_⟩
    rw [Store.onward, List.reverse_cons, hpaths, List.map_append]
    rfl
  · exact .inr ⟨hlong, f, h', new ++ [⟨(q.child k).text, q.child k, dir ++ [k], true⟩],
      (runOn_bind_ok hrun).trans hrest, by simp, by simpa using hst'⟩

/-- Below the outermost directory that is missing, all are. -/
theorem missing_below {d : Disk} (ht : d.tree.Legal) {q : Path} {n : Text} {names : List Text}
    (hq : q.Straight) (hn : Path.IsName n) (hnames : ∀ m ∈ names, Path.IsName m)
    (hshort : isOverlong ((q.child n).descend names) = false) {dir : Location} {k : Text}
    (hpl : d.place false (q.child n) = .ok (.absent dir k)) :
    d.hasEntry q = .ok true ∧ ∀ x ∈ Store.onward q (n :: names), d.hasEntry x = .ok false := by
  obtain ⟨-, -, ⟨e, hpar⟩, -⟩ := (place_child_absent_iff ht hq.isAbsolute hn.2).mp hpl
  have hpl' := place_follow_absent (p := q.child n) hq.isAbsolute hpl
  refine ⟨hasEntry_true_iff.mpr ⟨_, e, hpar⟩, fun x hx => ?_⟩
  rcases List.mem_cons.mp hx with rfl | hx
  · exact hasEntry_of_absent hpl'
  · obtain ⟨m, ms, rfl, hstart⟩ := Store.mem_onward hx
    rw [← Path.descend_concat]
    -- what goes on from a missing name is not found
    obtain ⟨rest, hrest⟩ := hstart
    refine hasEntry_of_notFound (place_descend_of_absent (p := q.child n) ht hq.isAbsolute hpl'
      (by simp) (fun j hj => (hnames j ?_).2) ?_)
    · rw [← hrest]
      exact List.mem_append_left _ hj
    · rw [← hrest, ← Path.descend_descend] at hshort
      exact Bool.eq_false_iff.mpr fun hover => by
        simp [isOverlong_descend (p := (q.child n).descend (ms ++ [m])) hq.isAbsolute rest hover]
          at hshort

/-- Where directories are half made, the directories that are missing are known. -/
theorem HalfMade.missing (hst : Stock before h.disk.tree dirs files) (hp : path.Straight)
    (hhalf : HalfMade h path) {h₁ : Host} (hd : h₁.disk = h.disk) :
    ∃ q n names dir, path = (q.child n).descend names ∧ q.Straight
      ∧ h.disk.place false (q.child n) = .ok (.absent dir n) ∧ (∃ m ∈ names, IsLong m)
      ∧ (Store.missingDirectories path.names.length path).runOn h₁
        = (.ok (Store.onward q (n :: names)), h₁) := by
  obtain ⟨-, hshort, top, names, dir, k, rfl, hpl, hlong⟩ := hhalf
  have htop : top.Straight :=
    ⟨hp.root, fun n hn => hp.names n (List.mem_append_left _ hn)⟩
  obtain ⟨hk, heq, -⟩ := hst.absent htop hpl
  rw [heq] at hpl hshort hp ⊢
  obtain ⟨hthere, hmiss⟩ := missing_below hst.grown.legal htop.parent hk
    (fun m hm => hp.names m (List.mem_append_right _ hm)) hshort hpl
  refine ⟨top.parent, k, names, dir, rfl, htop.parent, hpl, hlong, ?_⟩
  rw [← hd] at hthere hmiss
  rw [← Path.descend_cons]
  exact Store.missingDirectories_of_onward (by simp [Path.descend]) hthere hmiss

theorem onward_injective {p q : Path} {n m : Text} {ns ms : List Text}
    (h : Store.onward p (n :: ns) = Store.onward q (m :: ms))
    (hd : p.descend (n :: ns) = q.descend (m :: ms)) : p.child n = q.child m ∧ ns = ms := by
  have hhead : p.child n = q.child m := (List.cons.inj h).1
  refine ⟨hhead, ?_⟩
  rw [Path.descend_cons, Path.descend_cons, hhead] at hd
  simpa [Path.descend] using hd

/-- With the directories that are missing in hand: they are half made if the first can be made and a
name after it is too long. -/
theorem halfMade_iff_of_missing (hst : Stock before h.disk.tree dirs files) {h₁ : Host}
    (hd : h₁.disk = h.disk) (hf : h.fault? .createDirectories path = none) {q : Path} {n : Text}
    {names : List Text} (hq : q.Straight) (hn : ∀ m ∈ n :: names, Path.IsName m)
    (hpath : path = q.descend (n :: names)) (hshort : isOverlong path = false)
    (hm : (Store.missingDirectories path.names.length path).runOn h₁
      = (.ok (Store.onward q (n :: names)), h₁)) :
    HalfMade h path ↔ (∃ dir, h.disk.place false (q.child n) = .ok (.absent dir n))
      ∧ ∃ m ∈ names, IsLong m := by
  have hp : path.Straight := by
    rw [hpath]
    exact hq.descend hn
  constructor
  · intro hhalf
    obtain ⟨q', n', names', dir, hpath', -, hpl, hlong, hrun⟩ := hhalf.missing hst hp hd
    -- both ways of telling what is missing begin at the same directory
    rw [hm] at hrun
    rw [← Path.descend_cons, hpath] at hpath'
    obtain ⟨hhead, rfl⟩ := onward_injective (by simpa using hrun) hpath'
    rw [← hhead] at hpl
    obtain rfl := eq_of_place_child_absent hst.grown.legal hq.isAbsolute
      (hn n (List.mem_cons_self ..)).2 hpl
    exact ⟨⟨dir, hpl⟩, hlong⟩
  · rintro ⟨⟨dir, hpl⟩, hlong⟩
    exact ⟨hf, hshort, q.child n, names, dir, n, hpath.trans (Path.descend_cons ..), hpl, hlong⟩

/-- Directories are made, or none is, unless they are half made: then some stay. -/
theorem forks_createDirectories (hst : Stock before h.disk.tree dirs files) (hp : path.Straight) :
    Forks ((Store.createDirectories path).runOn h) (HalfMade h path)
      (fun made h' => ∃ new, Stock before h'.disk.tree (new ++ dirs) files
        ∧ made.reverse = new.map Made.path)
      (fun h' => Stock before h'.disk.tree dirs files)
      (fun h' => ∃ new, new ≠ [] ∧ Stock before h'.disk.tree (new ++ dirs) files) := by
  unfold Store.createDirectories
  -- a fault comes before anything is made
  rcases hf : h.fault? .createDirectories path with _ | fault
  swap
  · rw [runOn_bind_error (runOn_meetFault_some hf)]
    refine forks_of_ends hst ?_
    rintro ⟨hnone, -⟩
    simp [hf] at hnone
  rw [runOn_bind_ok (runOn_meetFault_none hf)]
  have hdisk := disk_struck .createDirectories path h
  generalize h.struck .createDirectories path = h₁ at hdisk ⊢
  have hst₁ : Stock before h₁.disk.tree dirs files := by rwa [hdisk]
  have hsame := Store.respects_missingDirectories (stepwise_same id) path.names.length path h₁
  -- so does a search that fails; half made directories would have let it succeed
  rcases hm : (Store.missingDirectories path.names.length path).runOn h₁ with ⟨f | missing, h₂⟩
  · rw [hm] at hsame
    obtain rfl : h₂ = h₁ := hsame
    rw [runOn_bind_error hm]
    refine forks_of_ends hst₁ fun hhalf => ?_
    obtain ⟨_, _, _, _, -, -, -, -, hrun⟩ := hhalf.missing hst hp hdisk
    simp [hm] at hrun
  obtain ⟨rfl, q, names, hpath, rfl, hthere, hmiss⟩ :=
    Store.missingDirectories_ok hst₁.grown.legal hp hm
  rw [runOn_bind_ok hm]
  cases names with
  | nil =>
    -- nothing is missing, so nothing is made and nothing can be half made
    refine forks_of_ends ⟨[], hst₁, rfl⟩ fun hhalf => ?_
    obtain ⟨_, _, _, _, -, -, -, -, hrun⟩ := hhalf.missing hst hp hdisk
    rw [hm] at hrun
    simp [Store.onward] at hrun
  | cons n names =>
    have hshort := not_overlong_of_hasEntry (hmiss _ (Store.descend_mem_onward q n names))
    have hn : ∀ m ∈ n :: names, Path.IsName m := fun m hm =>
      hp.names m (by rw [hpath]; exact List.mem_append_right _ hm)
    have hq : q.Straight := by
      rw [hpath] at hp
      exact ⟨hp.root, fun m hm => hp.names m (List.mem_append_left _ hm)⟩
    have hhalf := halfMade_iff_of_missing hst hdisk hf hq hn hpath (hpath ▸ hshort) hm
    rw [← hdisk] at hhalf
    rcases runOn_missing hst₁ hq (hn n (List.mem_cons_self ..))
      (fun m hm => hn m (List.mem_cons_of_mem _ hm)) hshort (hmiss _ (List.mem_cons_self ..))
      with ⟨hdir, ⟨hall, h', new, hrun, hst', hpaths⟩ | ⟨hlong, f, h', new, hrun, hne, hst'⟩⟩
        | ⟨hdir, f, hrun⟩
    · rw [runOn_bind_ok hrun]
      refine forks_of_ends ⟨new, hst', hpaths⟩ fun h => ?_
      obtain ⟨-, m, hm, hlong⟩ := hhalf.mp h
      exact hall m hm hlong
    · rw [runOn_bind_error hrun]
      exact ⟨fun _ => ⟨f, h', rfl, new, hne, hst'⟩, fun h => absurd (hhalf.mpr ⟨hdir, hlong⟩) h⟩
    · rw [runOn_bind_error hrun]
      refine forks_of_ends hst₁ fun h => ?_
      obtain ⟨⟨dir, hpl⟩, -⟩ := hhalf.mp h
      exact hdir dir hpl

/-! ## Files -/

/-- A file is made where its path leads to nothing, so that none was made under that path before;
otherwise nothing is made. -/
theorem ends_createIfAbsent (hst : Stock before h.disk.tree dirs files) (hp : path.Straight)
    (name : Text) :
    Ends ((Store.createIfAbsent path).runOn h)
      (fun created h' => (created = false ∧ Stock before h'.disk.tree dirs files)
        ∨ (created = true ∧ (∀ m ∈ files, m.path ≠ path)
          ∧ ∃ l, Stock before h'.disk.tree dirs (⟨name, path, l, false⟩ :: files)))
      (fun _ h' => Stock before h'.disk.tree dirs files) := by
  unfold Store.createIfAbsent
  rcases hf : h.fault? .createIfAbsent path with _ | fault
  swap
  · rw [runOn_bind_error (runOn_meetFault_some hf)]
    exact hst
  rw [runOn_bind_ok (runOn_meetFault_none hf), runOn_bind, runOn_get]
  dsimp only
  rcases hc : (h.struck .createIfAbsent path).disk.createFile path
    (h.struck .createIfAbsent path).clock.now with er | d
  · cases er with
    | alreadyThere => exact .inl ⟨rfl, hst⟩
    | _ => exact hst
  · obtain ⟨dir, n, hpl, rfl⟩ := createFile_ok hc
    refine .inr ⟨rfl, fun m hm hsame => ?_, dir ++ [n], hst.createFile hp hpl name _⟩
    obtain ⟨e, hfind, -⟩ :=
      Option.map_eq_some_iff.mp (hst.grown.shape m (List.mem_append_left _ hm))
    have hthere := hst.leadsTo (List.mem_append_left _ hm) h.disk rfl e hfind
    rw [hsame, show h.disk.place false path = .ok (.absent dir n) from hpl] at hthere
    simp at hthere

/-- Moving a time makes nothing. -/
theorem ends_touch (path : Path) (hst : Stock before h.disk.tree dirs files) :
    Ends ((Store.touch path).runOn h) (fun _ h' => Stock before h'.disk.tree dirs files)
      (fun _ h' => Stock before h'.disk.tree dirs files) := by
  unfold Store.touch
  rcases method_cases .touch path (Store.touched path) h
    with ⟨fault, -, hrun⟩ | ⟨e, -, hrun⟩ | ⟨d, hc, hrun⟩
  · rw [hrun]
    exact hst
  · rw [hrun]
    exact hst
  · rw [hrun]
    unfold Store.touched at hc
    obtain ⟨⟨l, e⟩, -, hset⟩ := except_bind_ok_iff.mp hc
    obtain ⟨l', e', -, rfl⟩ := setTime_ok hset
    exact hst.of_shape (hst.grown.legal.stamp _ _) (Tree.shape_stamp _ _ _)

end Provenance.Update
