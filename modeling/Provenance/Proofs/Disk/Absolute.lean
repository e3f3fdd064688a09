/-
Absolute paths are straight.

The absolute form of a path has no two dots left in it: they are gone through by
name at the end, and what is then left are names. This holds even where a link
leads back to itself, since what is not resolved is gone through as it is.
-/
import Provenance.Disk.Absolute
import Provenance.Proofs.Disk.Legal

set_option autoImplicit false

namespace Provenance

namespace Path

/-- The names of the path are pieces, two dots among them. -/
def Spelled (p : Path) : Prop := ∀ n ∈ p.names, IsPiece n

instance (p : Path) : Decidable p.Spelled := inferInstanceAs (Decidable (∀ n ∈ p.names, IsPiece n))

theorem Straight.spelled {p : Path} (h : p.Straight) : p.Spelled := h.pieces

theorem spelled_ofText (t : Text) : (ofText t).Spelled := fun _ h => isPiece_of_mem_namesIn h

theorem isPiece_upName : IsPiece upName := by decide

theorem Spelled.child {p : Path} (h : p.Spelled) {n : Text} (hn : IsPiece n) :
    (p.child n).Spelled := by
  intro m hm
  rcases List.mem_append.mp hm with hm | hm
  · exact h m hm
  · rw [List.mem_singleton.mp hm]; exact hn

theorem Spelled.parent {p : Path} (h : p.Spelled) : p.parent.Spelled :=
  fun m hm => h m (List.dropLast_subset _ hm)

theorem Spelled.descend {p : Path} (h : p.Spelled) {names : List Text}
    (hn : ∀ n ∈ names, IsPiece n) : (p.descend names).Spelled := by
  intro m hm
  rcases List.mem_append.mp hm with hm | hm
  · exact h m hm
  · exact hn m hm

/-- What is gone through by name leaves names. -/
theorem isName_walkNames {stack names : List Text} (hs : ∀ n ∈ stack, IsName n)
    (hn : ∀ n ∈ names, IsPiece n) : ∀ n ∈ walkNames stack names, IsName n := by
  induction names generalizing stack with
  | nil =>
    intro n hmem
    exact hs n (List.mem_reverse.mp hmem)
  | cons m names ih =>
    have hrest : ∀ n ∈ names, IsPiece n := fun n h => hn n (List.mem_cons_of_mem _ h)
    unfold walkNames
    split
    · exact ih (fun n h => hs n (List.mem_of_mem_tail h)) hrest
    · rename_i hup
      refine ih (fun n h => ?_) hrest
      rcases List.mem_cons.mp h with rfl | h
      · exact ⟨hn _ (List.mem_cons_self ..), hup⟩
      · exact hs n h

end Path

namespace Disk

variable {d : Disk}

/-! ## Going through links -/

/-- The paths that links lead to are spelled. -/
def Links.Spelled (links : Links) : Prop := ∀ lp ∈ links, ∀ p, lp.2 = some p → p.Spelled

/-- What a search for a path without links comes to is spelled, and so is what its links lead to. -/
def Canonical.Spelled (c : Canonical) : Prop := c.path.Spelled ∧ Links.Spelled c.links

theorem Links.Spelled.cons {links : Links} (h : Links.Spelled links) (here : Path) {o : Option Path}
    (ho : ∀ p, o = some p → p.Spelled) : Links.Spelled ((here, o) :: links) := by
  intro lp hlp p hp
  rcases List.mem_cons.mp hlp with rfl | hlp
  · exact ho p hp
  · exact h lp hlp p hp

theorem Links.Spelled.lookup {links : Links} (h : Links.Spelled links) {here p : Path}
    (hl : links.lookup here = some (some p)) : p.Spelled := by
  induction links with
  | nil => simp at hl
  | cons lp links ih =>
    obtain ⟨q, o⟩ := lp
    rw [List.lookup_cons] at hl
    split at hl
    · exact h (q, o) (List.mem_cons_self ..) p (Option.some.inj hl)
    · exact ih (fun lp hlp => h lp (List.mem_cons_of_mem _ hlp)) hl

theorem spelled_stepUp {p : Path} (h : p.Spelled) : (stepUp p).Spelled := by
  unfold stepUp
  split
  · exact h.parent
  split
  · exact h.child Path.isPiece_upName
  · exact h.parent

theorem spelled_linkStart {directory : Path} (target : Path) (h : directory.Spelled) :
    (linkStart directory target).Spelled := by
  unfold linkStart
  split
  · exact fun n hn => by simp at hn
  · exact h

theorem spelled_canonicalWith (ht : d.tree.Legal) {onLink : Links → Path → List Text → Canonical}
    (hon : ∀ links p names, Links.Spelled links → p.Spelled → (∀ n ∈ names, Path.IsPiece n) →
      (onLink links p names).Spelled)
    {links : Links} {p : Path} {names : List Text} (hl : Links.Spelled links) (hp : p.Spelled)
    (hn : ∀ n ∈ names, Path.IsPiece n) : (canonicalWith d onLink links p names).Spelled := by
  -- induction on the names that are left; what is done with a link met for the first time keeps
  -- spelling by assumption, so that the number of links need not be looked at here
  induction names generalizing links p with
  | nil => exact ⟨hp, hl⟩
  | cons name rest ih =>
    have hname := hn name (List.mem_cons_self ..)
    have hrest : ∀ n ∈ rest, Path.IsPiece n := fun n h => hn n (List.mem_cons_of_mem _ h)
    have hhere : (p.child name).Spelled := hp.child hname
    unfold canonicalWith
    dsimp only
    split
    · exact ih hl (spelled_stepUp hp) hrest
    split
    · rename_i target hfind
      split
      · exact ih hl hhere hrest
      split
      · rename_i q hq
        exact ih hl (hl.lookup hq) hrest
      · exact ⟨hhere.descend hrest, hl⟩
      · -- a link met for the first time: its target spells a path since the tree is legal
        obtain ⟨l, -, hlink⟩ := Option.bind_eq_some_iff.mp hfind
        have hled := hon _ _ _ (hl.cons (p.child name) (o := none) (by simp))
          (spelled_linkStart target hp) (ht.target hlink)
        split
        · refine ih (hled.2.cons _ fun q hq => ?_) hled.1 hrest
          rw [← Option.some.inj hq]
          exact hled.1
        · exact ⟨hled.1.descend hrest, hled.2⟩
    · exact ih hl hhere hrest

theorem spelled_canonical (ht : d.tree.Legal) (depth : Nat) {links : Links} {p : Path}
    {names : List Text} (hl : Links.Spelled links) (hp : p.Spelled)
    (hn : ∀ n ∈ names, Path.IsPiece n) : (canonical d depth links p names).Spelled := by
  -- with no links left to follow the search stops, otherwise the last lemma goes one link further
  induction depth generalizing links p names with
  | zero => exact spelled_canonicalWith ht (fun _ _ _ hl hp _ => ⟨hp, hl⟩) hl hp hn
  | succ depth ih => exact spelled_canonicalWith ht (fun _ _ _ hl hp hn => ih hl hp hn) hl hp hn

/-! ## Absolute forms -/

theorem isName_locationOf (hd : d.Legal) {p : Path} (hp : p.Spelled) {l : Location}
    (h : d.locationOf p = some l) : ∀ n ∈ l, Path.IsName n := by
  obtain ⟨⟨start, names⟩, hstart, rfl⟩ := Option.map_eq_some_iff.mp h
  -- where the path starts there are names alone, and what is left of it are pieces
  have hboth : (∀ n ∈ start, Path.IsName n) ∧ ∀ n ∈ names, Path.IsPiece n := by
    unfold start? at hstart
    split at hstart
    · obtain ⟨rfl, rfl⟩ : [] = start ∧ p.names = names := by simpa using hstart
      exact ⟨by simp, hp⟩
    split at hstart
    · obtain ⟨rfl, rfl⟩ : d.current = start ∧ p.names = names := by simpa using hstart
      exact ⟨hd.names, hp⟩
    split at hstart
    · simp at hstart
    · rename_i name rest hnames
      split at hstart
      · obtain ⟨rfl, rfl⟩ : d.current.dropLast = start ∧ rest = names := by simpa using hstart
        refine ⟨fun n hn => hd.names n (List.dropLast_subset _ hn), fun n hn => hp n ?_⟩
        rw [hnames]
        exact List.mem_cons_of_mem _ hn
      · simp at hstart
  exact Path.isName_walkNames (fun n hn => hboth.1 n (List.mem_reverse.mp hn)) hboth.2

theorem straight_of_resolve (hd : d.Legal) {p q : Path} (hp : p.Spelled)
    (h : d.resolve p = .ok q) : q.Straight := by
  unfold resolve at h
  dsimp only at h
  have hno : Links.Spelled [] := by intro lp hlp; simp at hlp
  have hfound := spelled_canonical hd.tree (2 * d.tree.entries.length) hno
    (p := ⟨if p.isAbsolute then .root else .here, []⟩) (fun n hn => by simp at hn) hp
  split at h
  · rename_i location hl hadrift
    split at h
    · simp at h
    · obtain rfl := Except.ok.inj h
      exact ⟨rfl, isName_locationOf hd hfound.1 hl⟩
  · simp at h

/-- The absolute form of a path goes through names alone. -/
theorem straight_of_absolute (hd : d.Legal) {p q : Path} (hp : p.Spelled)
    (h : d.absolute p = .ok q) : q.Straight := by
  unfold absolute at h
  cases hr : d.resolve p with
  | error e => rw [hr] at h; cases h
  | ok q' =>
    rw [hr] at h
    obtain rfl : q' = q := Except.ok.inj h
    exact straight_of_resolve hd hp hr

end Disk

end Provenance
