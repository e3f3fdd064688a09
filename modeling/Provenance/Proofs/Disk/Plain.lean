/-
Trees without links.

Where no link is in the way a straight path leads where its names do, if it leads
anywhere: to the location that they spell, or to the directory that they spell but for
the last. So what is made under such a path is made at that location, and what the
path leads to can be read off the tree. A tree may have no link at all, or none on the
way to one location and below it. `Widened` says what a disk without links comes to
while things are made on the way to a location.
-/
import Provenance.Proofs.Disk.Listing
import Provenance.Proofs.Store

set_option autoImplicit false

namespace Provenance

namespace Tree

variable {t t' : Tree} {l dir : Location} {n : Text} {e : Entry}

/-- No location of the tree holds a link. -/
def LinkFree (t : Tree) : Prop := ∀ l e, t.find? l = some e → e.isLink = false

/-- No link is on the way to a location, at it or below it. -/
def ClearAlong (t : Tree) (root : Location) : Prop :=
  ∀ l e, l <+: root ∨ root <+: l → t.find? l = some e → e.isLink = false

theorem LinkFree.clearAlong (h : t.LinkFree) (root : Location) : t.ClearAlong root :=
  fun l e _ he => h l e he

theorem linkFree_of_entries (h : t.AllLegal) (hcheck : t.entries.all (fun le => !le.2.isLink) = true) :
    t.LinkFree := by
  intro l e he
  have hmem : (l, e) ∈ t.entries := h.mem_entries.mpr he
  have hle := List.all_eq_true.mp hcheck (l, e) hmem
  simpa using hle

theorem LinkFree.of_shape (h : t.LinkFree)
    (hs : ∀ l e, t'.shape l = some e → e.isLink = true → t.shape l = some e) : t'.LinkFree := by
  intro l e he
  by_contra hlink
  have hlink : e.timeless.isLink = true := by simpa using hlink
  have hold := hs l e.timeless (shape_of_find? he) hlink
  obtain ⟨e', hfind, htimeless⟩ := Option.map_eq_some_iff.mp hold
  have hnot : e'.isLink = false := h l e' hfind
  rw [← Entry.isLink_timeless, htimeless, hlink] at hnot
  exact Bool.noConfusion hnot

theorem LinkFree.add (h : t.LinkFree) (hdir : (t.find? dir).isSome) (he : e.isLink = false)
    (now : Int) : (t.add (dir ++ [n]) e now).LinkFree := by
  apply h.of_shape
  intro l e' hl hlink
  rw [shape_add hdir] at hl
  split at hl
  · rw [← Option.some.inj hl, Entry.isLink_timeless, he] at hlink
    exact Bool.noConfusion hlink
  · exact hl

end Tree

namespace Disk

variable {t : Tree} {d d' : Disk} {follow : Bool} {k : Nat} {l dir target : Location}
  {names : List Text} {n : Text} {e : Entry} {p : Path} {q : Place} {now : Int}

/-- A walk that meets no link and no two dots goes on by the next name each time. -/
theorem Walks.along (hclear : ∀ ms, ms <+: names → ∀ e, t.find? (l ++ ms) = some e → e.isLink = false)
    (hn : ∀ n ∈ names, n ≠ Path.upName) (h : Walks t follow k l names q) :
    (∃ e, q = .present (l ++ names) e) ∨ ∃ dir n, q = .absent dir n ∧ dir ++ [n] = l ++ names := by
  induction h with
  | @here k l e he => exact .inl ⟨e, by rw [List.append_nil]⟩
  | up => exact absurd rfl (hn _ (List.mem_cons_self ..))
  | @absent k l n => exact .inr ⟨l, n, rfl, rfl⟩
  | atLink _ _ _ hlink => exact absurd (hclear _ (List.prefix_refl _) _ hlink) (by simp [Entry.isLink])
  | through _ _ _ hlink =>
    exact absurd (hclear _ ((List.prefix_append [_] _)) _ hlink) (by simp [Entry.isLink])
  | @on _ _ n _ _ _ _ _ _ _ _ _ ih =>
    have hrest := ih (fun ms hms e he => hclear (n :: ms) (List.cons_prefix_cons.mpr ⟨rfl, hms⟩) e
      (by rwa [List.append_cons])) fun m hm => hn m (List.mem_cons_of_mem _ hm)
    rwa [List.append_assoc] at hrest

/-- What comes before the end of a path is on the way to a location as well, or below it. -/
theorem onward_or_of_onward {root l ms : Location} (h : ms <+: l) (hto : l <+: root ∨ root <+: l) :
    ms <+: root ∨ root <+: ms :=
  hto.elim (fun hl => .inl (h.trans hl)) fun hl => List.prefix_or_prefix_of_prefix h hl

/-- Where a straight path leads that no link is in the way of: to the location that its names spell. -/
theorem place_along {root : Location} (hclear : d.tree.ClearAlong root) (hp : p.Straight)
    (hto : p.names <+: root ∨ root <+: p.names) (h : d.place follow p = .ok q) :
    (∃ e, q = .present p.names e ∧ d.tree.find? p.names = some e)
      ∨ ∃ dir n, q = .absent dir n ∧ dir ++ [n] = p.names := by
  have hplace := h
  rw [place_absolute d follow hp.isAbsolute] at h
  split at h
  · simp at h
  have hn : ∀ n ∈ p.names, n ≠ Path.upName := fun n hmem => (hp.names n hmem).2
  rcases (walks_of_walk h).along
    (fun ms hms e he => hclear ms e (onward_or_of_onward hms hto) he) hn
    with ⟨e, rfl⟩ | ⟨dir, n, rfl, hnames⟩
  · rw [List.nil_append] at hplace ⊢
    exact .inl ⟨e, rfl, place_present hp.isAbsolute hplace⟩
  · exact .inr ⟨dir, n, rfl, hnames⟩

/-- A walk to a location that is there gets to it, unless a name on the way is too long. -/
theorem walk_there (ht : t.Legal) (hn : ∀ n ∈ names, n ≠ Path.upName)
    (hclear : ∀ ms, ms <+: names → ∀ e, t.find? (l ++ ms) = some e → e.isLink = false)
    (he : t.find? (l ++ names) = some e) :
    walk t follow k l names = .ok (.present (l ++ names) e)
      ∨ walk t follow k l names = .error .nameTooLong := by
  induction names generalizing l with
  | nil =>
    rw [List.append_nil] at he ⊢
    rw [walk_nil, he]
    exact .inl rfl
  | cons n names ih =>
    -- a directory is all the way above what is there
    have hdir : t.isDirectory l = true :=
      ht.isDirectory_of_below (List.cons_ne_nil n names) (Option.isSome_iff_exists.mpr ⟨e, he⟩)
    have hnext : (t.find? (l ++ [n])).isSome := by
      rw [List.append_cons] at he
      rcases names with _ | ⟨m, names⟩
      · exact Option.isSome_iff_exists.mpr ⟨e, by rwa [List.append_nil] at he⟩
      · exact Tree.isSome_find?_of_isDirectory (ht.isDirectory_of_below (List.cons_ne_nil m names)
          (Option.isSome_iff_exists.mpr ⟨e, he⟩))
    obtain ⟨e₁, he₁⟩ := Option.isSome_iff_exists.mp hnext
    have hlink : e₁.isLink = false := hclear [n] (List.prefix_append [n] names) e₁ he₁
    rw [List.append_cons] at he
    have hrest := ih (l := l ++ [n]) (fun m hm => hn m (List.mem_cons_of_mem _ hm))
      (fun ms hms e he => hclear (n :: ms) (List.cons_prefix_cons.mpr ⟨rfl, hms⟩) e
        (by rwa [List.append_cons])) he
    rw [← List.append_cons] at hrest
    rw [walk_cons, if_neg (by simp [hdir]), if_neg (hn n (List.mem_cons_self ..)), he₁]
    split
    · exact .inr rfl
    · cases e₁ with
      | link target => simp [Entry.isLink] at hlink
      | _ => exact hrest

/-- A straight path leads to what is at the location that its names spell, if it can be looked up. -/
theorem place_there {root : Location} (hd : d.tree.Legal) (hclear : d.tree.ClearAlong root)
    (hp : p.Straight) (hto : p.names <+: root ∨ root <+: p.names)
    (he : d.tree.find? p.names = some e) :
    d.place follow p = .ok (.present p.names e) ∨ d.place follow p = .error .nameTooLong := by
  rw [place_absolute d follow hp.isAbsolute]
  split
  · exact .inr rfl
  · have hwalk : walk d.tree follow maxLinks [] p.names = .ok (.present ([] ++ p.names) e)
        ∨ walk d.tree follow maxLinks [] p.names = .error .nameTooLong := walk_there hd
      (fun n hmem => (hp.names n hmem).2)
      (fun ms hms e he => hclear ms e (onward_or_of_onward hms hto) he) he
    rwa [List.nil_append] at hwalk

/-- Where a question whether something is there is answered no, nothing is. -/
theorem find?_of_hasEntry_false {root : Location} (hd : d.tree.Legal) (hclear : d.tree.ClearAlong root)
    (hp : p.Straight) (hto : p.names <+: root ∨ root <+: p.names) (h : d.hasEntry p = .ok false) :
    d.tree.find? p.names = none := by
  rcases he : d.tree.find? p.names with _ | e
  · rfl
  have hplace : d.place true p = .ok (.present p.names e) ∨ d.place true p = .error .nameTooLong :=
    place_there hd hclear hp hto he
  rcases hplace with hpl | hpl
  · rw [hasEntry_true_iff.mpr ⟨_, _, hpl⟩] at h
    simp at h
  · rw [hasEntry, holds, stat, hpl] at h
    simp [meansAbsent] at h

/-- Where a straight path leads on a disk without links: to the location that its names spell. -/
theorem place_plain (hfree : d.tree.LinkFree) (hp : p.Straight) (h : d.place follow p = .ok q) :
    (∃ e, q = .present p.names e ∧ d.tree.find? p.names = some e)
      ∨ ∃ dir n, q = .absent dir n ∧ dir ++ [n] = p.names :=
  place_along (hfree.clearAlong p.names) hp (.inl (List.prefix_refl _)) h

/-- So what a straight path leads to is at its names. -/
theorem stat_plain (hfree : d.tree.LinkFree) (hp : p.Straight) (h : d.stat p = .ok (l, e)) :
    l = p.names ∧ d.tree.find? p.names = some e := by
  obtain ⟨e', heq, hfind⟩ | ⟨dir, n, heq, -⟩ := place_plain hfree hp (stat_ok_iff.mp h)
  · obtain ⟨rfl, rfl⟩ := Place.present.inj heq
    exact ⟨rfl, hfind⟩
  · simp at heq

/-- A walk that comes to something goes the same way on a tree that has something where it ends. -/
theorem Walks.on_tree {t' : Tree} (hfree : t.LinkFree) (ht' : t'.Legal) (hfree' : t'.LinkFree)
    (hn : ∀ n ∈ names, n ≠ Path.upName) (h : Walks t follow k l names q) {x : Location} {e₀ : Entry}
    (hq : q = .present x e₀) (hfind : t'.find? (l ++ names) = some e) :
    Walks t' follow k l names (.present (l ++ names) e) := by
  induction h with
  | here => rw [List.append_nil] at hfind ⊢; exact .here hfind
  | up => exact absurd rfl (hn _ (List.mem_cons_self ..))
  | absent => simp at hq
  | atLink _ _ _ hlink => exact absurd (hfree _ _ hlink) (by simp [Entry.isLink])
  | through _ _ _ hlink => exact absurd (hfree _ _ hlink) (by simp [Entry.isLink])
  | @on k l n _ rest _ _ hup hshort _ _ _ ih =>
    -- what is there has directories all the way above it
    have hdir : t'.isDirectory l = true :=
      ht'.isDirectory_of_below (List.cons_ne_nil n rest) (Option.isSome_iff_exists.mpr ⟨e, hfind⟩)
    rw [List.append_cons] at hfind ⊢
    have hstep : (t'.find? (l ++ [n])).isSome := by
      cases rest with
      | nil =>
        rw [List.append_nil] at hfind
        exact Option.isSome_iff_exists.mpr ⟨e, hfind⟩
      | cons m rest =>
        exact Tree.isSome_find?_of_isDirectory
          (ht'.isDirectory_of_below (List.cons_ne_nil m rest) (Option.isSome_iff_exists.mpr ⟨e, hfind⟩))
    obtain ⟨e₁, he₁⟩ := Option.isSome_iff_exists.mp hstep
    exact .on hdir hup hshort he₁ (hfree' _ _ he₁) (ih (fun m hm => hn m (List.mem_cons_of_mem _ hm)) hq hfind)

/-- Of two disks without links, a straight path leads on both to what they have at its names. -/
theorem stat_on_disk (hfree : d.tree.LinkFree) (hd' : d'.Legal) (hfree' : d'.tree.LinkFree)
    (hp : p.Straight) (h : d.stat p = .ok (l, e)) (hsame : d'.tree.find? p.names = d.tree.find? p.names) :
    d'.stat p = .ok (l, e) := by
  obtain ⟨rfl, hfind⟩ := stat_plain hfree hp h
  have hplace := stat_ok_iff.mp h
  refine stat_of_present ?_
  rw [place_absolute _ _ hp.isAbsolute] at hplace ⊢
  split at hplace
  · simp at hplace
  rename_i hshort
  rw [if_neg hshort]
  have hn : ∀ n ∈ p.names, n ≠ Path.upName := fun n hmem => (hp.names n hmem).2
  exact ((walks_of_walk hplace).on_tree hfree hd'.tree hfree' hn rfl (hsame.trans hfind)).walk_eq

/-- So what they have there is all that counts for what the path leads to. -/
theorem toOption_stat_eq (hd : d.Legal) (hfree : d.tree.LinkFree) (hd' : d'.Legal)
    (hfree' : d'.tree.LinkFree) (hp : p.Straight) (hsame : d'.tree.find? p.names = d.tree.find? p.names) :
    (d'.stat p).toOption = (d.stat p).toOption := by
  rcases h : d.stat p with er | ⟨l, e⟩
  · rcases h' : d'.stat p with er' | ⟨l, e⟩
    · rfl
    · have hback := stat_on_disk hfree' hd hfree hp h' hsame.symm
      rw [h] at hback
      simp at hback
  · rw [stat_on_disk hfree hd' hfree' hp h hsame]

/-! ## Making things -/

/-- A disk without links to which something may have been added at a location and on the way to it,
and nothing elsewhere. What is no directory is as it was, its time included. -/
structure Widened (target : Location) (d d' : Disk) : Prop where
  legal : d'.Legal
  free : d'.tree.LinkFree
  keeps : d.tree.Keeps d'.tree
  same : ∀ x e, e.isDirectory = false → d.tree.find? x = some e → d'.tree.find? x = some e
  only : ∀ x, d.tree.find? x = none → (d'.tree.find? x).isSome → x <+: target

theorem Widened.refl (hd : d.Legal) (hfree : d.tree.LinkFree) : Widened target d d :=
  ⟨hd, hfree, .refl _, fun _ _ _ h => h, fun x hx hs => by rw [hx] at hs; simp at hs⟩

theorem Widened.trans {d'' : Disk} (h : Widened target d d') (h' : Widened target d' d'') :
    Widened target d d'' where
  legal := h'.legal
  free := h'.free
  keeps := h.keeps.trans h'.keeps
  same x e he hx := h'.same x e he (h.same x e he hx)
  only x hx hs := by
    by_cases hmid : d'.tree.find? x = none
    · exact h'.only x hmid hs
    · exact h.only x hx (Option.isSome_iff_ne_none.mpr hmid)

theorem Widened.mono {target' : Location} (h : Widened target d d') (hp : target <+: target') :
    Widened target' d d' :=
  { h with only := fun x hx hs => (h.only x hx hs).trans hp }

/-- A location that is not on the way to the target is free if it was. -/
theorem Widened.find?_eq_none_iff (h : Widened target d d') {x : Location} (hx : ¬ x <+: target) :
    d'.tree.find? x = none ↔ d.tree.find? x = none := by
  constructor
  · intro hnone
    rcases hf : d.tree.find? x with _ | e
    · rfl
    · have hkept := h.keeps x _ (Tree.shape_of_find? hf)
      rw [Tree.shape_eq_none_iff.mpr hnone] at hkept
      simp at hkept
  · intro hnone
    by_contra hsome
    exact hx (h.only x hnone (Option.isSome_iff_ne_none.mpr hsome))

/-- Something is made where a straight path leads to nothing. -/
theorem widened_add (hd : d.Legal) (hfree : d.tree.LinkFree) (hp : p.Straight)
    (hpl : d.place follow p = .ok (.absent dir n)) (he : e.isLink = false) (now : Int) :
    Widened p.names d (d.withTree (d.tree.add (dir ++ [n]) e now)) := by
  obtain ⟨hdir, hnone, -⟩ := place_absent hd.tree hp hpl
  have hsome := Tree.isSome_find?_of_isDirectory hdir
  have hfind := Tree.find?_add hsome n e now
  have hnames : dir ++ [n] = p.names := by
    rcases place_plain hfree hp hpl with ⟨e', heq, -⟩ | ⟨dir', n', heq, hnames⟩
    · simp at heq
    · obtain ⟨rfl, rfl⟩ := Place.absent.inj heq
      exact hnames
  refine ⟨hd.add hp hpl he, hfree.add hsome he now, Tree.keeps_add hsome hnone e now, ?_, ?_⟩
  · intro x e' he' hx
    have hnew : x ≠ dir ++ [n] := by
      rintro rfl
      rw [hnone] at hx
      simp at hx
    have hnotdir : x ≠ dir := by
      rintro rfl
      rw [Tree.isDirectory, hx] at hdir
      rw [Option.any_some, he'] at hdir
      exact Bool.noConfusion hdir
    rw [tree_withTree, hfind, if_neg hnew, if_neg hnotdir, hx]
  · intro x hx hs
    by_cases hnew : x = dir ++ [n]
    · obtain rfl := hnew.trans hnames
      exact List.prefix_refl _
    · rw [tree_withTree, hfind, if_neg hnew, hx] at hs
      simp at hs

/-- Without links no search follows too many of them. -/
theorem walk_ne_tooManyLinks (hfree : t.LinkFree) :
    walk t follow k l names ≠ .error .tooManyLinks := by
  induction k, l, names using walk_induction with
  | nil k l =>
    rw [walk_nil]
    split <;> simp
  | cons k l name rest ih ihk =>
    rw [walk_cons]
    split
    · simp
    split
    · exact ih _
    split
    · simp
    split
    · split <;> simp
    · rename_i target hlink
      have hnot := hfree _ _ hlink
      simp [Entry.isLink] at hnot
    · exact ih _

/-- Without links no path is on a way that leads back to itself. -/
theorem resolve_ne_loop (hfree : d.tree.LinkFree) (p q : Path) : d.resolve p ≠ .error (.loop q) := by
  unfold resolve
  dsimp only
  split
  · rename_i location hlocation hadrift
    split
    · rename_i hstat
      have hplace : d.place true ⟨.root, location⟩ = .error .tooManyLinks := by
        unfold stat at hstat
        split at hstat
        · simp at hstat
        · simp at hstat
        · rename_i e hpl
          rw [hpl, Except.error.inj hstat]
      rw [place_absolute d true rfl] at hplace
      split at hplace
      · simp at hplace
      · exact absurd hplace (walk_ne_tooManyLinks hfree)
    · simp
  · simp

end Disk

/-! ## The calls of the store -/

namespace Store

open Action Host Disk

variable {h h' : Host} {path : Path} {target : Location}

/-- A disk without links is widened on the way to a location. -/
def Widens (target : Location) (d d' : Disk) : Prop :=
  d.Legal → d.tree.LinkFree → Widened target d d'

theorem stepwise_widens (target : Location) : Stepwise (Across (Widens target)) :=
  stepwise_across (fun _ hd hfree => .refl hd hfree) fun h h' hd hfree =>
    have hw := h hd hfree
    hw.trans (h' hw.legal hw.free)

theorem widens_createDirectories (hp : path.Straight) :
    Respects (Across (Widens path.names)) (createDirectories path) := by
  apply respects_createDirectories (stepwise_widens _) hp
  intro x hx hprefix d now d' hc hd hfree
  obtain ⟨dir, n, hpl, rfl⟩ := makeDirectory_ok hc
  exact (widened_add hd hfree hx hpl rfl now).mono hprefix

theorem widens_makeDirectories (hp : path.Straight) :
    Respects (Across (Widens path.names)) (makeDirectories path) := by
  apply respects_makeDirectoriesWithin (stepwise_widens _) _
  intro k d now d' hc hd hfree
  obtain ⟨dir, n, hpl, rfl⟩ := makeDirectory_ok hc
  exact (widened_add (p := ⟨path.anchor, path.names.take k⟩) hd hfree
    ⟨hp.root, fun n hn => hp.names n (List.mem_of_mem_take hn)⟩ hpl rfl now).mono
    (List.take_prefix _ _)

/-- On a disk without links a file is created exactly if its location is free. -/
theorem createIfAbsent_plain (hd : h.disk.Legal) (hfree : h.disk.tree.LinkFree) (hp : path.Straight)
    {created : Bool} (hr : (createIfAbsent path).runOn h = (.ok created, h')) :
    Widened path.names h.disk h'.disk ∧ (h'.disk.tree.find? path.names).isSome
      ∧ (created = true ↔ h.disk.tree.find? path.names = none) := by
  rcases createIfAbsent_ok hr with ⟨rfl, hc⟩ | ⟨rfl, hc, hsame⟩
  · obtain ⟨dir, n, hpl, hd'⟩ := createFile_ok hc
    obtain ⟨hdir, hnone, -⟩ := place_absent hd.tree hp hpl
    rcases place_plain hfree hp hpl with ⟨e', heq, -⟩ | ⟨dir', n', heq, hnames⟩
    · simp at heq
    obtain ⟨rfl, rfl⟩ := Place.absent.inj heq
    have hfind := Tree.find?_add (t := h.disk.tree) (Tree.isSome_find?_of_isDirectory hdir) n
      (.file [] h.clock.now) h.clock.now (dir ++ [n])
    rw [if_pos rfl] at hfind
    have hwide := widened_add (e := .file [] h.clock.now) hd hfree hp hpl rfl h.clock.now
    rw [← hnames] at hwide ⊢
    rw [hd']
    exact ⟨hwide, Option.isSome_iff_exists.mpr ⟨_, hfind⟩, iff_of_true rfl hnone⟩
  · obtain ⟨x, e, hpl⟩ := createFile_alreadyThere hp.isAbsolute hc
    rcases place_plain hfree hp hpl with ⟨e', -, hfind⟩ | ⟨dir, n, heq, -⟩
    · rw [hsame, hfind]
      exact ⟨.refl hd hfree, rfl, by simp⟩
    · simp at heq

/-- A touch moves the time at the location that the path spells, forward, and changes nothing else. -/
theorem touch_plain (hfree : h.disk.tree.LinkFree) (hp : path.Straight) {u : Unit}
    (hr : (touch path).runOn h = (.ok u, h')) :
    ∃ e time, h.disk.tree.find? path.names = some e ∧ e.time < time
      ∧ h'.disk = h.disk.withTree (h.disk.tree.stamp path.names time) := by
  obtain ⟨x, e, time, hpl, htime, hd⟩ := touch_ok hr
  rcases place_plain hfree hp hpl with ⟨e', heq, hfind⟩ | ⟨dir, n, heq, -⟩
  · obtain ⟨rfl, rfl⟩ := Place.present.inj heq
    exact ⟨e, time, hfind, htime, hd⟩
  · simp at heq

end Store

end Provenance
