/-
What is resolved stays what it is.

The absolute form of a path goes through no links, so that it is its own absolute form. This takes
an argument, since links lead to names that go through further links, and since each link that was
met is kept with what it led to; the invariant is that the path that has been come to is resolved,
and so is what any of the links met leads to.

It holds of paths from the root on the ways to which no link is met again on its own way. Where one
is, the names from it on are left as they are and two dots among them are gone through by name, which
may lead to a link once more. A relative path with many double dots may be too long to be looked up
where its absolute form is not.
-/
import Provenance.Proofs.Action
import Provenance.Proofs.Disk.Absolute
import Provenance.Proofs.Spelling

set_option autoImplicit false

namespace Provenance.Disk

variable {d : Disk} {p q r : Path} {names : List Text} {links : Links}

/-- A path from the root through names, of which those that are links are too far from the root to be
looked up. -/
structure Resolved (d : Disk) (p : Path) : Prop where
  root : p.anchor = .root
  names : Path.upName ∉ p.names
  links : ∀ l, l ≠ [] → l <+: p.names → ∀ target, d.tree.find? l = some (.link target) →
    isOverlong ⟨.root, l⟩ = true

theorem locationOf_root (h : Path.upName ∉ names) : d.locationOf ⟨.root, names⟩ = some names :=
  congrArg some (Path.walkNames_eq_self h)

theorem resolved_nil (d : Disk) : Resolved d ⟨.root, []⟩ :=
  ⟨rfl, List.not_mem_nil, fun _ hne hl => absurd (List.prefix_nil.mp hl) hne⟩

theorem Resolved.parent (h : Resolved d p) : Resolved d p.parent where
  root := h.root
  names hup := h.names (List.dropLast_subset _ hup)
  links l hne hl := h.links l hne (hl.trans (List.dropLast_prefix _))

theorem Resolved.stepUp (h : Resolved d p) : Resolved d (stepUp p) := by
  have habsolute : p.isAbsolute = true := by simp [Path.isAbsolute, h.root]
  rw [Disk.stepUp, if_pos habsolute]
  exact h.parent

theorem Resolved.child (h : Resolved d p) {n : Text} (hn : n ≠ Path.upName)
    (hlink : ∀ target, d.tree.find? (p.names ++ [n]) = some (.link target) →
      isOverlong (p.child n) = true) : Resolved d (p.child n) where
  root := h.root
  names hup := (List.mem_append.mp hup).elim h.names fun hmem => hn (List.mem_singleton.mp hmem).symm
  links l hne hl target htarget := by
    rcases List.prefix_concat_iff.mp hl with rfl | hl
    · rw [← h.root]
      exact hlink target htarget
    · exact h.links l hne hl target htarget

theorem Resolved.linkStart (h : Resolved d p) (target : Path) : Resolved d (linkStart p target) := by
  unfold Disk.linkStart
  split
  · exact resolved_nil d
  · exact h

theorem locationOf_child (hroot : p.anchor = .root) (hup : Path.upName ∉ p.names) {n : Text}
    (hn : n ≠ Path.upName) : d.locationOf (p.child n) = some (p.names ++ [n]) := by
  rw [Path.child, hroot]
  refine locationOf_root fun hmem => ?_
  exact (List.mem_append.mp hmem).elim hup fun hmem => hn (List.mem_singleton.mp hmem).symm

/-! ## Links met -/

/-- What any of the links leads to is resolved. -/
def Links.Resolved (d : Disk) (links : Links) : Prop := ∀ lp ∈ links, ∀ p, lp.2 = some p → d.Resolved p

theorem Links.Resolved.cons (h : Links.Resolved d links) (here : Path) {o : Option Path}
    (ho : ∀ p, o = some p → d.Resolved p) : Links.Resolved d ((here, o) :: links) := by
  intro lp hlp p hp
  rcases List.mem_cons.mp hlp with rfl | hlp
  · exact ho p hp
  · exact h lp hlp p hp

theorem Links.Resolved.lookup (h : Links.Resolved d links) {here : Path}
    (hl : links.lookup here = some (some p)) : d.Resolved p := by
  obtain ⟨_, _, rfl, -⟩ := List.lookup_eq_some_iff.mp hl
  exact h (here, some p) (List.mem_append_right _ List.mem_cons_self) p rfl

/-! ## Going through names -/

/-- A search that meets no link again on its own way comes to a resolved path. -/
def Canonical.Resolved (d : Disk) (c : Canonical) : Prop :=
  c.sound = true → d.Resolved c.path ∧ c.links.Resolved d

theorem resolved_canonicalWith {onLink : Links → Path → List Text → Canonical}
    (hon : ∀ links p names, Links.Resolved d links → d.Resolved p → (onLink links p names).Resolved d)
    (hl : links.Resolved d) (hp : d.Resolved p) :
    (canonicalWith d onLink links p names).Resolved d := by
  induction names generalizing links p with
  | nil => exact fun _ => ⟨hp, hl⟩
  | cons name rest ih =>
    unfold canonicalWith
    dsimp only
    split
    · exact ih hl hp.stepUp
    rename_i hup
    rw [locationOf_child hp.root hp.names hup, Option.bind_some]
    split
    · -- a link is left as it is if it is too far from the root, and gone through once otherwise
      rename_i target hfind
      split
      · rename_i hlong
        exact ih hl (hp.child hup fun _ _ => hlong)
      split
      · rename_i q hq
        exact ih hl (hl.lookup hq)
      · exact fun hsound => Bool.noConfusion hsound
      · have hled := hon ((p.child name, none) :: links) (Disk.linkStart p target) target.names
          (hl.cons _ (by simp)) (hp.linkStart target)
        split
        · rename_i hsound
          obtain ⟨hpath, hlinks⟩ := hled hsound
          exact ih (hlinks.cons _ fun q hq => Option.some.inj hq ▸ hpath) hpath
        · exact fun hsound => Bool.noConfusion hsound
    · rename_i hno
      exact ih hl (hp.child hup fun target htarget => absurd htarget (hno target))

theorem resolved_canonical (depth : Nat) (hl : links.Resolved d) (hp : d.Resolved p) :
    (canonical d depth links p names).Resolved d := by
  induction depth generalizing links p names with
  | zero => exact resolved_canonicalWith (fun _ _ _ _ _ hsound => Bool.noConfusion hsound) hl hp
  | succ depth ih => exact resolved_canonicalWith (fun _ _ _ hl hp => ih hl hp) hl hp

/-- Names that are resolved after a path that is are gone through as they are. -/
theorem canonicalWith_of_resolved {onLink : Links → Path → List Text → Canonical}
    (h : d.Resolved (p.descend names)) : canonicalWith d onLink links p names
      = ⟨p.descend names, true, links⟩ := by
  induction names generalizing p with
  | nil => rw [Path.descend_nil]; rfl
  | cons name rest ih =>
    have hnext : d.Resolved ((p.child name).descend rest) := by rwa [← Path.descend_cons]
    have hup : Path.upName ∉ p.names ++ name :: rest := h.names
    rw [List.mem_append, List.mem_cons, not_or, not_or] at hup
    have hroot : p.anchor = .root := h.root
    have hname : name ≠ Path.upName := Ne.symm hup.2.1
    unfold canonicalWith
    dsimp only
    rw [if_neg hname, locationOf_child hroot hup.1 hname, Option.bind_some]
    split
    · -- a link that is left as it is
      rename_i target hfind
      have hprefix : p.names ++ [name] <+: p.names ++ name :: rest :=
        (List.prefix_append_right_inj p.names).mpr (List.prefix_append [name] rest)
      have hlong := h.links (p.names ++ [name]) (by simp) hprefix target hfind
      rw [← hroot, ← Path.child] at hlong
      rw [if_pos hlong, ih hnext, Path.descend_cons]
    · rw [ih hnext, Path.descend_cons]

theorem canonical_of_resolved (depth : Nat) (h : d.Resolved (p.descend names)) :
    canonical d depth links p names = ⟨p.descend names, true, links⟩ := by
  cases depth <;> exact canonicalWith_of_resolved h

/-! ## Absolute forms -/

/-- No link is met again on its own way when an absolute path is resolved. -/
def Unlooped (d : Disk) (p : Path) : Prop :=
  (canonical d (2 * d.tree.entries.length) [] ⟨.root, []⟩ p.names).sound = true

instance (d : Disk) (p : Path) : Decidable (d.Unlooped p) := inferInstanceAs (Decidable (_ = true))

/-- A search that comes to a resolved path has that for its result, unless the path leads to a link
without an end. -/
theorem resolve_ok_iff (hp : p.isAbsolute = true) (hq : d.Resolved q)
    (hfound : (canonical d (2 * d.tree.entries.length) [] ⟨.root, []⟩ p.names).path = q) :
    d.resolve p = .ok r ↔ r = q ∧ d.stat q ≠ .error .tooManyLinks := by
  obtain ⟨anchor, names⟩ := q
  obtain rfl : anchor = .root := hq.root
  have hlocation : d.locationOf ⟨.root, names⟩ = some names := locationOf_root hq.names
  have habsolute : (⟨.root, names⟩ : Path).isAbsolute = true := rfl
  unfold resolve
  simp only [if_pos hp, hfound, hlocation, habsolute, Bool.not_true, Bool.and_false]
  split
  · rename_i hlinks
    simp [hlinks]
  · rename_i hlinks
    exact ⟨fun h => ⟨(Except.ok.inj h).symm, hlinks⟩, fun h => congrArg Except.ok h.1.symm⟩

theorem resolve_resolve (hp : p.isAbsolute = true) (hsound : d.Unlooped p) (h : d.resolve p = .ok q) :
    d.resolve q = .ok q := by
  obtain ⟨hresolved, -⟩ := resolved_canonical (2 * d.tree.entries.length)
    (fun _ hlp => absurd hlp List.not_mem_nil) (resolved_nil d) hsound
  obtain ⟨hq, hlinks⟩ := (resolve_ok_iff hp hresolved rfl).mp h
  rw [← hq] at hresolved hlinks
  -- a second search comes to the same path
  have hself : Path.descend ⟨.root, []⟩ q.names = q := by
    rw [Path.descend, List.nil_append, ← hresolved.root]
  refine (resolve_ok_iff (by simp [Path.isAbsolute, hresolved.root]) hresolved ?_).mpr ⟨rfl, hlinks⟩
  rw [canonical_of_resolved _ (hself.symm ▸ hresolved), hself]

/-- An absolute path has an absolute form that is its own. -/
theorem absolute_absolute (hp : p.isAbsolute = true) (hsound : d.Unlooped p) (h : d.absolute p = .ok q) :
    d.absolute q = .ok q := by
  have hresolve : d.resolve p = .ok q := Action.except_mapError_ok_iff.mp h
  rw [absolute, resolve_resolve hp hsound hresolve]
  rfl

end Provenance.Disk
