/-
Whole names.

A name is read character by character, and ends where something comes that is no ASCII letter, no ASCII digit
and no underscore. The identifier that the source has there may well go on, since other scripts have letters and
digits too. Which characters those are does not matter for what is said here: `foreign` is any set of them. So a
name is what the identifier of the source has for an ASCII beginning, and it is whole exactly if the identifier
is of ASCII characters.

In one scope the full name tells the name (`fullName_eq_iff`), so identifiers run into each other exactly if
they have one ASCII beginning. A companion whose identifier cannot be read at all is taken for one that has
none, and runs into whatever else in its scope has the name that these are given. `whole_iff` puts this
together.
-/
import Provenance.Proofs.Outline.NamePlaces

set_option autoImplicit false

namespace Provenance.Outline

variable {k : Nat} {t name : Text} {foreign : Char → Bool}

/-! ## Identifiers of a source -/

/-- Whether a character goes on an identifier: those of ASCII do, and letters and digits of other scripts. -/
def goesOn (foreign : Char → Bool) (c : Char) : Bool := isIdentPart c || foreign c

/-- The identifier that a source begins with: letters, digits and underscores, or what stands between two
backquotes. -/
def identifierIn (foreign : Char → Bool) : Text → Text
  | '\x60' :: rest => rest.takeWhile (· ≠ '\x60')
  | t => t.takeWhile (goesOn foreign)

/-- A name stands in place `k` of a text and is cut short there: the character right behind it goes on an
identifier. -/
def CutShort (foreign : Char → Bool) (t : Text) (k : Nat) (name : Text) : Prop :=
  name <+: t.drop k ∧ ∃ c, t[k + name.length]? = some c ∧ goesOn foreign c = true

/-- All characters are those of ASCII identifiers. -/
def OfAscii (t : Text) : Prop := ∀ c ∈ t, isIdentPart c = true

instance (t : Text) : Decidable (OfAscii t) := List.decidableBAll (fun c => isIdentPart c = true) t

/-- What can be read of an identifier is its beginning. -/
theorem identifierIn_of_identAt? (foreign : Char → Bool) (h : identAt? t = some name) :
    ∃ rest, t = name ++ rest ∧ (∀ c ∈ rest.head?, isIdentPart c = false)
      ∧ identifierIn foreign t = name ++ rest.takeWhile (goesOn foreign) := by
  obtain ⟨hident, htake⟩ := identAt?_eq_some_iff.mp h
  have hcut : t = name ++ t.dropWhile isIdentPart := by
    rw [← htake, List.takeWhile_append_dropWhile]
  have hgoes : ∀ c ∈ name, goesOn foreign c = true := fun c hc => by
    rw [goesOn, hident.isIdentPart c hc, Bool.true_or]
  refine ⟨t.dropWhile isIdentPart, hcut, fun c hc => ?_, ?_⟩
  · have hhead := List.head?_dropWhile_not isIdentPart t
    rwa [Option.mem_def.mp hc] at hhead
  · -- the text does not begin with a backquote, which no identifier begins with
    rw [← List.takeWhile_append_of_pos hgoes, ← hcut]
    unfold identifierIn
    split
    · rename_i rest
      have hquote : '\x60' ∈ name := by
        obtain ⟨c, name, rfl, -, -⟩ := hident
        rw [List.cons_append] at hcut
        rw [(List.cons.inj hcut).1]
        exact List.mem_cons_self
      exact absurd hquote (hident.not_mem (by decide))
    · rfl

/-- A name that is read in a place is cut short there exactly if it is not the identifier of the source. -/
theorem cutShort_iff (h : identAt? (t.drop k) = some name) :
    CutShort foreign t k name ↔ identifierIn foreign (t.drop k) ≠ name := by
  obtain ⟨rest, hcut, -, hidentifier⟩ := identifierIn_of_identAt? foreign h
  have hnext : t[k + name.length]? = rest.head? := by
    rw [← List.getElem?_drop, hcut, List.getElem?_append_right (Nat.le_refl _), Nat.sub_self,
      List.head?_eq_getElem?]
  rw [CutShort, hnext, hidentifier, hcut]
  cases rest with
  | nil => simp
  | cons c rest => cases hc : goesOn foreign c <;> simp [hc]

/-- It is that exactly if the identifier is of ASCII characters. -/
theorem identifierIn_eq_iff (h : identAt? t = some name) :
    identifierIn foreign t = name ↔ OfAscii (identifierIn foreign t) := by
  obtain ⟨rest, -, hstop, hidentifier⟩ := identifierIn_of_identAt? foreign h
  constructor
  · intro hname
    rw [hname]
    exact (identAt?_eq_some_iff.mp h).1.isIdentPart
  · rw [hidentifier]
    intro hascii
    cases rest with
    | nil => simp
    | cons c rest =>
      -- what goes on the identifier would be the first character that is none of ASCII
      have hc : isIdentPart c = false := hstop c rfl
      cases hgoes : goesOn foreign c with
      | false => simp [hgoes]
      | true =>
        rw [hascii c (by simp [hgoes])] at hc
        exact Bool.noConfusion hc

namespace Kotlin

variable {u : SourceUnit} {d e : Declaration} {package : Option Text} {ds : List Declaration}
  {names : List Text}

/-! ## Scopes -/

/-- A declaration stands directly in the body of another one. -/
def Holds (outer d : Declaration) : Prop :=
  d.scope = .member ∧ d.parent = outer.fullName ∧ outer.startLine < d.startLine
    ∧ d.startLine ≤ outer.endLine

/-- Two declarations of a unit are declared in one scope: at the top, or in the body of one declaration. -/
def SameScope (u : SourceUnit) (d e : Declaration) : Prop :=
  (d.scope = .topLevel ∧ e.scope = .topLevel) ∨ ∃ outer ∈ u.declarations, Holds outer d ∧ Holds outer e

theorem qualify_inj (package : Option Text) (m n : Text) :
    qualify package m = qualify package n ↔ m = n := by
  cases package <;> simp [qualify]

/-- A full name is the name behind what the scope has for a beginning. -/
theorem qualified_of_nested (h : Nested package ds d names) :
    (d.scope = .topLevel ∧ d.fullName = some (qualify package d.name))
      ∨ (d.scope = .member ∧ d.fullName = some (qualify d.parent d.name)) := by
  cases h with
  | topLevel hd hscope hparent hfull =>
    rw [fullNameOf_singleton] at hfull
    exact .inl ⟨hscope, hfull⟩
  | member houter hd hscope hparent hstart hend hfull =>
    rw [fullNameOf_concat package houter.ne_nil, ← houter.fullName, ← hparent] at hfull
    exact .inr ⟨hscope, hfull⟩

/-- In one scope the full name tells the name. -/
theorem fullName_eq_iff (hu : Regular u) (hd : d ∈ u.declarations) (he : e ∈ u.declarations)
    (h : SameScope u d e) (hdfull : d.fullName ≠ none) (hefull : e.fullName ≠ none) :
    d.fullName = e.fullName ↔ d.name = e.name := by
  obtain ⟨_, hdnested⟩ := (hu.placed d hd).nested hdfull
  obtain ⟨_, henested⟩ := (hu.placed e he).nested hefull
  have hdifferent : Scope.topLevel ≠ Scope.member := by decide
  rcases h with ⟨hdtop, hetop⟩ | ⟨outer, -, ⟨hdmember, hdparent, -⟩, hemember, heparent, -⟩
  · obtain ⟨-, hdname⟩ := (qualified_of_nested hdnested).resolve_right
      fun h => hdifferent (hdtop.symm.trans h.1)
    obtain ⟨-, hename⟩ := (qualified_of_nested henested).resolve_right
      fun h => hdifferent (hetop.symm.trans h.1)
    rw [hdname, hename, Option.some_inj, qualify_inj]
  · obtain ⟨-, hdname⟩ := (qualified_of_nested hdnested).resolve_left
      fun h => hdifferent (h.1.symm.trans hdmember)
    obtain ⟨-, hename⟩ := (qualified_of_nested henested).resolve_left
      fun h => hdifferent (h.1.symm.trans hemember)
    rw [hdname, hename, hdparent, heparent, Option.some_inj, qualify_inj]

instance (outer d : Declaration) : Decidable (Holds outer d) := inferInstanceAs (Decidable (_ ∧ _))

instance (u : SourceUnit) (d e : Declaration) : Decidable (SameScope u d e) :=
  inferInstanceAs (Decidable (_ ∨ ∃ outer ∈ u.declarations, Holds outer d ∧ Holds outer e))

theorem SameScope.symm (h : SameScope u d e) : SameScope u e d :=
  h.imp And.symm fun ⟨outer, houter, hd, he⟩ => ⟨outer, houter, he, hd⟩

/-! ## Whole names -/

/-- The identifier that a source gives to a declaration. A companion that is given none has the name of all
of these. -/
def identifierOf (foreign : Char → Bool) (t : Text) (d : Declaration) : Text :=
  match (namePlace? (mask .kotlin t) d).map fun k => identifierIn foreign (t.drop k) with
  | some (c :: rest) => c :: rest
  | _ => companionName

/-- The source gives an identifier to a declaration, and nothing of it can be read: it does not begin with an
ASCII letter or an underscore. -/
def Hidden (foreign : Char → Bool) (t : Text) (d : Declaration) : Prop :=
  ∃ k ∈ namePlace? (mask .kotlin t) d, identAt? (t.drop k) = none ∧ identifierIn foreign (t.drop k) ≠ []

instance (foreign : Char → Bool) (t : Text) (d : Declaration) : Decidable (Hidden foreign t d) :=
  inferInstanceAs (Decidable (∃ k ∈ namePlace? (mask .kotlin t) d, _ ∧ _))

/-- How the names of a unit are read from a source: they are the identifiers of ASCII characters that stand in
their places, and in one scope they tell the full names apart. -/
structure ReadFrom (t : Text) (u : SourceUnit) : Prop where
  name : ∀ d ∈ u.declarations, d.fullName ≠ none → ∃ k, namePlace? (mask .kotlin t) d = some k
    ∧ d.name = (identAt? (t.drop k)).getD companionName
  segment : ∀ s ∈ segmentsOf (mask .kotlin t), identAt? (t.drop s.2) = some s.1
  package : u.package = packageOf ((segmentsOf (mask .kotlin t)).map Prod.fst)
  scope : ∀ d ∈ u.declarations, ∀ e ∈ u.declarations, SameScope u d e → d.fullName ≠ none →
    e.fullName ≠ none → (d.fullName = e.fullName ↔ d.name = e.name)

/-- The names of a unit are whole: neither the name of a declaration with a full name nor a segment of the
package is cut short, and what has different identifiers in one scope has different full names. -/
structure Whole (foreign : Char → Bool) (t : Text) (u : SourceUnit) : Prop where
  name : ∀ d ∈ u.declarations, d.fullName ≠ none →
    ∀ k ∈ namePlace? (mask .kotlin t) d, ¬CutShort foreign t k d.name
  segment : ∀ s ∈ segmentsOf (mask .kotlin t), ¬CutShort foreign t s.2 s.1
  apart : ∀ d ∈ u.declarations, ∀ e ∈ u.declarations, SameScope u d e → d.fullName ≠ none →
    e.fullName ≠ none → identifierOf foreign t d ≠ identifierOf foreign t e → d.fullName ≠ e.fullName

/-- The identifiers of a source can be read: those that begin like one of ASCII characters have no others in
them, and a companion whose identifier is hidden shares its scope with nothing else that has the name which
companions get. -/
structure Readable (foreign : Char → Bool) (t : Text) (u : SourceUnit) : Prop where
  name : ∀ d ∈ u.declarations, d.fullName ≠ none → ∀ k ∈ namePlace? (mask .kotlin t) d,
    identAt? (t.drop k) ≠ none → OfAscii (identifierIn foreign (t.drop k))
  segment : ∀ s ∈ segmentsOf (mask .kotlin t), OfAscii (identifierIn foreign (t.drop s.2))
  hidden : ∀ d ∈ u.declarations, ∀ e ∈ u.declarations, SameScope u d e → d.fullName ≠ none →
    e.fullName ≠ none → Hidden foreign t d → e.name = companionName →
    identifierOf foreign t d = identifierOf foreign t e

theorem readFrom_of_parse {path : Text} (h : parse path t = .ok u) : ReadFrom t u where
  name d hd hfull := by
    rw [parse_eq] at h
    obtain rfl := Except.ok.inj h
    obtain ⟨k, hk, hname⟩ := namePlace?_of_mem hd
    exact ⟨k, hk, hname hfull⟩
  segment _ hs := identAt?_of_mem_segmentsOf hs
  package := by
    rw [parse_eq] at h
    obtain rfl := Except.ok.inj h
    exact package_eq _
  scope _ hd _ he hscope hdfull hefull :=
    fullName_eq_iff (regular_of_parse h) hd he hscope hdfull hefull

/-- What has a hidden identifier and a full name all the same is a companion. -/
theorem name_of_hidden (h : ReadFrom t u) (hd : d ∈ u.declarations) (hfull : d.fullName ≠ none)
    (hhidden : Hidden foreign t d) : d.name = companionName := by
  obtain ⟨place, hplace, hnone, -⟩ := hhidden
  obtain ⟨k, hk, hname⟩ := h.name d hd hfull
  obtain rfl : k = place := Option.some.inj (hk.symm.trans hplace)
  rwa [hnone] at hname

/-- What is not hidden has its identifier for a name, if identifiers can be read. -/
theorem identifierOf_eq_name (h : ReadFrom t u) (hreadable : Readable foreign t u)
    (hd : d ∈ u.declarations) (hfull : d.fullName ≠ none) (hhidden : ¬Hidden foreign t d) :
    identifierOf foreign t d = d.name := by
  obtain ⟨k, hk, hname⟩ := h.name d hd hfull
  rw [identifierOf, hk, Option.map_some, hname]
  rcases hident : identAt? (t.drop k) with _ | name
  · have hnone : identifierIn foreign (t.drop k) = [] := by
      by_contra hne
      exact hhidden ⟨k, hk, hident, hne⟩
    rw [hnone]
    rfl
  · have hascii := hreadable.name d hd hfull k hk (by simp [hident])
    obtain ⟨c, rest, rfl, -, -⟩ := (identAt?_eq_some_iff.mp hident).1
    rw [(identifierIn_eq_iff hident).mpr hascii]
    rfl

theorem readable_of_whole (h : ReadFrom t u) (hwhole : Whole foreign t u) : Readable foreign t u where
  name d hd hfull k hk hread := by
    obtain ⟨place, hplace, hname⟩ := h.name d hd hfull
    obtain rfl : place = k := Option.some.inj (hplace.symm.trans hk)
    obtain ⟨name, hident⟩ := Option.ne_none_iff_exists'.mp hread
    rw [hident, Option.getD_some] at hname
    have hcut := hwhole.name d hd hfull place hk
    rw [hname, cutShort_iff hident, not_not] at hcut
    exact (identifierIn_eq_iff hident).mp hcut
  segment s hs := by
    have hcut := hwhole.segment s hs
    rw [cutShort_iff (h.segment s hs), not_not] at hcut
    exact (identifierIn_eq_iff (h.segment s hs)).mp hcut
  hidden d hd e he hscope hdfull hefull hhidden hename := by
    have hdname := name_of_hidden h hd hdfull hhidden
    by_contra hne
    exact hwhole.apart d hd e he hscope hdfull hefull hne
      ((h.scope d hd e he hscope hdfull hefull).mpr (hdname.trans hename.symm))

theorem whole_of_readable (h : ReadFrom t u) (hreadable : Readable foreign t u) : Whole foreign t u where
  name d hd hfull k hk hcut := by
    obtain ⟨place, hplace, hname⟩ := h.name d hd hfull
    obtain rfl : place = k := Option.some.inj (hplace.symm.trans hk)
    rcases hident : identAt? (t.drop place) with _ | name
    · -- the name that companions get would stand in the place, and would be read
      rw [hident, Option.getD_none] at hname
      exact identAt?_ne_none isIdent_companionName (hname ▸ hcut.1) hident
    · rw [hident, Option.getD_some] at hname
      rw [hname, cutShort_iff hident] at hcut
      exact hcut ((identifierIn_eq_iff hident).mpr (hreadable.name d hd hfull place hk (by simp [hident])))
  segment s hs := by
    rw [cutShort_iff (h.segment s hs), not_not]
    exact (identifierIn_eq_iff (h.segment s hs)).mpr (hreadable.segment s hs)
  apart d hd e he hscope hdfull hefull hne heq := by
    have hname := (h.scope d hd e he hscope hdfull hefull).mp heq
    -- two names that are read are the identifiers, so one of the two is hidden
    by_cases hdhidden : Hidden foreign t d
    · have hename := hname.symm.trans (name_of_hidden h hd hdfull hdhidden)
      exact hne (hreadable.hidden d hd e he hscope hdfull hefull hdhidden hename)
    by_cases hehidden : Hidden foreign t e
    · have hdname := hname.trans (name_of_hidden h he hefull hehidden)
      exact hne (hreadable.hidden e he d hd hscope.symm hefull hdfull hehidden hdname).symm
    · refine hne ?_
      rw [identifierOf_eq_name h hreadable hd hdfull hdhidden, hname,
        identifierOf_eq_name h hreadable he hefull hehidden]

/-- Every text has a unit. Its names, and the segments of its package, are the ASCII identifiers that the source
has in their places, and two declarations of one scope have one full name exactly if they have one name.
Whatever characters beyond ASCII go on an identifier, the names are whole exactly if no identifier that begins
like one of ASCII characters has such a character in it, and no companion with a hidden identifier meets another
declaration of the name it gets. -/
theorem whole_iff (foreign : Char → Bool) (path t : Text) : ∃ u, parse path t = .ok u ∧ ReadFrom t u
    ∧ (Whole foreign t u ↔ Readable foreign t u) := by
  have hread : ReadFrom t _ := readFrom_of_parse (parse_eq path t)
  exact ⟨_, parse_eq path t, hread, readable_of_whole hread, whole_of_readable hread⟩

/-- A source with identifiers of ASCII characters, next to which others stand in comments, and with a companion
that is given none. -/
def plainNames : Text :=
  "package p . q//\u00e9\nclass Cafe/*\u00e9*/ \x7b\n  companion object\n  class Companions\n\x7d\n".toList

/-- Its names are whole. -/
theorem whole_plainNames : ∃ u, parse "A.kt".toList plainNames = .ok u ∧ Whole isWordChar plainNames u := by
  obtain ⟨u, hu, -, hiff⟩ := whole_iff isWordChar "A.kt".toList plainNames
  refine ⟨u, hu, hiff.mpr ?_⟩
  rw [parse_eq] at hu
  obtain rfl := Except.ok.inj hu
  exact ⟨by decide +kernel, by decide +kernel, by decide +kernel⟩

/-- A package and two classes with names that have an ASCII beginning and go on beyond. -/
def accented : Text := "package com.ex\u00e4mple\n\nclass Caf\u00e9\nclass Caf\u00e8\n".toList

/-- The names are cut short, and the two classes get one full name. -/
theorem not_whole_accented : ¬∃ u, parse "A.kt".toList accented = .ok u ∧ Whole isWordChar accented u := by
  rintro ⟨u, hu, hwhole⟩
  rw [parse_eq] at hu
  obtain rfl := Except.ok.inj hu
  obtain ⟨d, hd, e, he, hscope, hdfull, hefull, hne, heq⟩ : ∃ d ∈ declarationsOf (mask .kotlin accented),
      ∃ e ∈ declarationsOf (mask .kotlin accented), (d.scope = .topLevel ∧ e.scope = .topLevel)
        ∧ d.fullName ≠ none ∧ e.fullName ≠ none
        ∧ identifierOf isWordChar accented d ≠ identifierOf isWordChar accented e
        ∧ d.fullName = e.fullName := by decide +kernel
  exact hwhole.apart d hd e he (.inl hscope) hdfull hefull hne heq

end Kotlin

end Provenance.Outline
