/-
Declared bindings.

A binding binds each name at the first unit that declares something of this name, and to the
class of that name in the package of that unit. All names of a unit that is read from a text
are names in its package, so there is such a class, and the binding never fails.

A full name is only segments with dots between, and does not tell where the package ends and
the classes begin. What is at the top of one unit can therefore have the full name of what is
nested in another one, of a shorter package, and then it depends on the order of the units
which of the two is found.
-/
import Provenance.Binding
import Provenance.Proofs.ClassFile
import Provenance.Proofs.Outline.Nesting

set_option autoImplicit false

namespace Provenance

open Outline

variable {name full : Text} {package : Option Text} {d : Declaration} {ds : List Declaration}
  {u v : SourceUnit} {units : List SourceUnit} {names segments : List Text} {exclude : List Text}

/-- Whether a unit declares something of a full name. -/
def Outline.SourceUnit.declares (u : SourceUnit) (name : Text) : Bool :=
  u.declarations.any fun d => d.fullName = some name

/-! ## Class names -/

theorem packageOf_ne_nil (hsegments : ∀ s ∈ segments, IsIdent s) : packageOf segments ≠ some [] := by
  cases segments with
  | nil => simp [packageOf]
  | cons s rest =>
    have hsolid : fullNameOf (packageOf []) (s :: rest) ≠ [] :=
      (solid_fullNameOf (by simp) hsegments (List.cons_ne_nil s rest)).1
    exact fun h => hsolid (Option.some.inj h)

/-- Names are known from the full name, apart from where the package ends. -/
theorem append_of_fullNameOf_eq {segments' names' : List Text} (hsegments : ∀ s ∈ segments, IsIdent s)
    (hsegments' : ∀ s ∈ segments', IsIdent s) (hnames : ∀ n ∈ names, IsIdent n)
    (hnames' : ∀ n ∈ names', IsIdent n) (hne : names ≠ []) (hne' : names' ≠ [])
    (h : fullNameOf (packageOf segments) names = fullNameOf (packageOf segments') names') :
    segments ++ names = segments' ++ names' := by
  have hcut : ∀ ts : List Text, ts ≠ [] → (∀ t ∈ ts, IsIdent t) →
      Text.splitOn '.' (Text.join ['.'] ts) = ts := fun ts hts hident =>
    Text.splitOn_join hts fun t ht => (hident t ht).not_mem (by decide)
  rw [fullNameOf_packageOf segments hne, fullNameOf_packageOf segments' hne'] at h
  rw [← hcut (segments ++ names) (List.append_ne_nil_of_right_ne_nil segments hne)
      (List.forall_mem_append.mpr ⟨hsegments, hnames⟩), h,
    hcut (segments' ++ names') (List.append_ne_nil_of_right_ne_nil segments' hne')
      (List.forall_mem_append.mpr ⟨hsegments', hnames'⟩)]

namespace ClassName

theorem package?_packageOf (hsegments : ∀ s ∈ segments, IsIdent s) :
    (ClassName.mk full (packageOf segments)).package? = packageOf segments := by
  have hne := packageOf_ne_nil hsegments
  rcases hp : packageOf segments with _ | p
  · rfl
  · rw [hp] at hne
    rw [package?, Option.filter_eq_some_iff]
    exact ⟨rfl, decide_eq_true fun hnil => hne (congrArg some hnil)⟩

/-- A full name of identifiers is a class name in its package. -/
theorem make_fullNameOf (hsegments : ∀ s ∈ segments, IsIdent s) (hnames : ∀ n ∈ names, IsIdent n)
    (hne : names ≠ []) : make (fullNameOf (packageOf segments) names) (packageOf segments)
      = .ok ⟨fullNameOf (packageOf segments) names, packageOf segments⟩ := by
  obtain ⟨hfull, hblank⟩ := solid_fullNameOf hsegments hnames hne
  rw [make, Text.trim_eq_self hblank, if_neg hfull, package?_packageOf hsegments]
  rcases packageOf segments with _ | p
  · rfl
  · have hstarts : (fullNameOf (some p) names).startsWith (p ++ ['.']) = true := by
      rw [Text.startsWith, List.isPrefixOf_iff_prefix]
      exact ⟨Text.join ['.'] names, by simp [fullNameOf, Kotlin.qualify]⟩
    exact if_pos hstarts

theorem eq_of_make {c : ClassName} (h : make full package = .ok c) : c = ⟨full, package⟩ := by
  unfold make at h
  split at h
  · simp at h
  split at h
  · exact (Except.ok.inj h).symm
  split at h
  · exact (Except.ok.inj h).symm
  · simp at h

/-- The classes of a full name are its names that are not of the package. -/
theorem classPath_fullNameOf (hsegments : ∀ s ∈ segments, IsIdent s) (hnames : ∀ n ∈ names, IsIdent n)
    (hne : names ≠ []) :
    (ClassName.mk (fullNameOf (packageOf segments) names) (packageOf segments)).classPath = names := by
  have hcut : Text.splitOn '.' (Text.join ['.'] names) = names :=
    Text.splitOn_join hne fun n hn => (hnames n hn).not_mem (by decide)
  rw [classPath, package?_packageOf hsegments]
  rcases packageOf segments with _ | p
  · exact hcut
  · simpa [fullNameOf, Kotlin.qualify] using hcut

/-- The binary name of a class at the top of a package. -/
def atTop (package : Option Text) (name : Text) : Text :=
  match package with
  | none => name
  | some p => p.replaceChar '.' '/' ++ '/' :: name

theorem internalName_fullNameOf (hsegments : ∀ s ∈ segments, IsIdent s)
    (hnames : ∀ n ∈ names, IsIdent n) (hne : names ≠ []) :
    (ClassName.mk (fullNameOf (packageOf segments) names) (packageOf segments)).internalName
      = atTop (packageOf segments) (Text.join ['$'] names) := by
  rw [internalName, classPath_fullNameOf hsegments hnames hne, package?_packageOf hsegments]
  rcases packageOf segments with _ | p <;> rfl

theorem mem_atTop {a : Char} (h : a ∈ name) : a ∈ atTop package name := by
  cases package with
  | none => exact h
  | some p => exact List.mem_append_right _ (List.mem_cons_of_mem _ h)

/-- In the binary name of a class at the top there is no dollar sign. -/
theorem dollar_not_mem_atTop (hsegments : ∀ s ∈ segments, IsIdent s) (hname : IsIdent name) :
    '$' ∉ atTop (packageOf segments) name := by
  have hdollar : '$' ∉ name := hname.not_mem (by decide)
  cases segments with
  | nil => exact hdollar
  | cons s rest =>
    intro h
    rcases List.mem_append.mp h with h | h
    · rcases Text.mem_replaceChar h with h | ⟨-, h⟩
      · exact absurd h (by decide)
      · rcases Text.mem_join h with h | ⟨t, ht, hmem⟩
        · exact absurd h (by decide)
        · exact (hsegments t ht).not_mem (by decide) hmem
    · exact (List.mem_cons.mp h).elim (by decide) hdollar

/-- A class has the binary name of one at the top with the same full name exactly if they are in one
package: else it is nested, and its binary name has a dollar sign. -/
theorem internalName_eq_atTop_iff {segments' : List Text} (hsegments : ∀ s ∈ segments, IsIdent s)
    (hsegments' : ∀ s ∈ segments', IsIdent s) (hname : IsIdent name) (hnames : ∀ n ∈ names, IsIdent n)
    (hne : names ≠ [])
    (h : fullNameOf (packageOf segments) [name] = fullNameOf (packageOf segments') names) :
    (ClassName.mk (fullNameOf (packageOf segments') names) (packageOf segments')).internalName
      = atTop (packageOf segments) name ↔ packageOf segments' = packageOf segments := by
  have hsingle : ∀ n ∈ [name], IsIdent n := List.forall_mem_singleton.mpr hname
  rw [internalName_fullNameOf hsegments' hnames hne]
  constructor
  · intro hinternal
    have happend := append_of_fullNameOf_eq hsegments hsegments' hsingle hnames
      (List.cons_ne_nil name []) hne h
    match names, hne with
    | [n], _ => rw [List.append_inj_left' happend rfl]
    | n :: m :: rest, _ =>
      have hdollar : '$' ∈ Text.join ['$'] (n :: m :: rest) := by simp [Text.join_cons]
      exact absurd (hinternal ▸ mem_atTop hdollar) (dollar_not_mem_atTop hsegments hname)
  · intro hpackage
    rw [hpackage] at h ⊢
    obtain rfl := List.append_cancel_left (append_of_fullNameOf_eq hsegments hsegments hsingle hnames
      (List.cons_ne_nil name []) hne h)
    rw [Text.join_singleton]

end ClassName

/-! ## Bindings -/

namespace Binding

variable {b b' : Binding} {c : ClassName}

/-- A name that is bound stays bound as it is. -/
theorem resolve_bindNew (b : Binding) (n : Text) (c : ClassName) (name : Text) :
    (b.bindNew n c).resolve name = (b.resolve name).or (if n = name then some c else none) := by
  unfold bindNew
  split
  · rename_i hbound
    split
    · rename_i heq
      rw [Option.or_of_isSome (heq ▸ hbound)]
    · rw [Option.or_none]
  · rw [resolve, List.lookup_append]
    by_cases heq : n = name
    · simp [resolve, heq]
    · have hbeq : (name == n) = false := beq_false_of_ne (Ne.symm heq)
      simp [resolve, heq, hbeq, List.lookup_cons]

/-- What is bound after the declarations of a package. -/
theorem resolve_addDeclared (h : addDeclared exclude package b ds = .ok b') (hname : name ∉ exclude) :
    b'.resolve name = (b.resolve name).or
      (if ds.any fun d => d.fullName = some name then some ⟨name, package⟩ else none) := by
  induction ds generalizing b with
  | nil =>
    obtain rfl := Except.ok.inj h
    simp
  | cons d ds ih =>
    rw [List.any_cons]
    unfold addDeclared at h
    split at h
    · rename_i hfull
      rw [ih h, hfull]
      simp
    rename_i n hfull
    split at h
    · -- what is excluded is not the name
      rename_i hn
      have hother : n ≠ name := fun heq => hname (heq ▸ hn)
      rw [ih h, hfull]
      simp [hother]
    split at h
    · simp at h
    · rename_i c hmake
      rw [ih h, resolve_bindNew, ClassName.eq_of_make hmake, hfull]
      by_cases heq : n = name
      · simp [heq]
      · simp [heq]

/-- What is bound after some units: each name at the first unit that declares it. -/
theorem resolve_addUnits (h : addUnits exclude b units = .ok b') (hname : name ∉ exclude) :
    b'.resolve name = (b.resolve name).or
      ((units.find? (·.declares name)).map fun u => ⟨name, u.package⟩) := by
  induction units generalizing b with
  | nil =>
    obtain rfl := Except.ok.inj h
    simp
  | cons u units ih =>
    unfold addUnits at h
    split at h
    · simp at h
    · rename_i bound hbound
      rw [ih h, resolve_addDeclared hbound hname, List.find?_cons, Option.or_assoc]
      rcases hdeclares : u.declares name with _ | _
      · have hany : (u.declarations.any fun d => d.fullName = some name) = false := hdeclares
        simp [hany]
      · have hany : (u.declarations.any fun d => d.fullName = some name) = true := hdeclares
        simp [hany]

theorem resolve_declared (h : declared units exclude = .ok b) (hname : name ∉ exclude) :
    b.resolve name = (units.find? (·.declares name)).map fun u => ⟨name, u.package⟩ := by
  rw [resolve_addUnits h hname]
  rfl

/-- The names that a regular unit declares are class names in its package. -/
theorem make_of_regular (hu : Regular u) (hd : d ∈ u.declarations) (hfull : d.fullName = some full) :
    ClassName.make full u.package = .ok ⟨full, u.package⟩ := by
  obtain ⟨segments, hsegments, hpackage⟩ := hu.package
  obtain ⟨names, hnested⟩ := (hu.placed d hd).nested (by simp [hfull])
  have hnames := hnested.forall_name fun e he => (hu.placed e he).isIdent
  obtain rfl := Option.some.inj (hfull.symm.trans hnested.fullName)
  rw [hpackage]
  exact ClassName.make_fullNameOf hsegments hnames hnested.ne_nil

theorem addDeclared_ok (h : ∀ d ∈ ds, ∀ full, d.fullName = some full →
    ClassName.make full package = .ok ⟨full, package⟩) (exclude : List Text) (b : Binding) :
    ∃ b', addDeclared exclude package b ds = .ok b' := by
  induction ds generalizing b with
  | nil => exact ⟨b, rfl⟩
  | cons d ds ih =>
    obtain ⟨hd, hds⟩ := List.forall_mem_cons.mp h
    unfold addDeclared
    split
    · exact ih hds b
    rename_i full hfull
    split
    · exact ih hds b
    · rw [hd full hfull]
      exact ih hds _

/-- Units that are read from texts can be bound. -/
theorem addUnits_ok (h : ∀ u ∈ units, Regular u) (exclude : List Text) (b : Binding) :
    ∃ b', addUnits exclude b units = .ok b' := by
  induction units generalizing b with
  | nil => exact ⟨b, rfl⟩
  | cons u units ih =>
    obtain ⟨hu, hunits⟩ := List.forall_mem_cons.mp h
    obtain ⟨bound, hbound⟩ := addDeclared_ok (fun d hd full => make_of_regular hu hd) exclude b
    unfold addUnits
    rw [hbound]
    exact ih hunits bound

/-- A unit with a class in a class. -/
def inClass : SourceUnit where
  path := "a.kt".toList
  package := none
  declarations := [⟨"class".toList, "A".toList, some "A".toList, .topLevel, 1, 3, none⟩,
    ⟨"class".toList, "B".toList, some "A.B".toList, .member, 2, 2, some "A".toList⟩]
  digest := Digest.ofText "class A \x7b\n  class B\n\x7d\n".toList

/-- A unit with a class of the same full name at the top. -/
def inPackage : SourceUnit where
  path := "b.kt".toList
  package := some "A".toList
  declarations := [⟨"class".toList, "B".toList, some "A.B".toList, .topLevel, 2, 2, none⟩]
  digest := Digest.ofText "package A\nclass B\n".toList

theorem parse_inClass :
    Kotlin.parse "a.kt".toList "class A \x7b\n  class B\n\x7d\n".toList = .ok inClass := by
  have hpackage : (mask .kotlin "class A \x7b\n  class B\n\x7d\n".toList).splitLines.findSome? packageIn?
      = none := by decide +kernel
  have hdeclarations : Kotlin.declarationsOf (mask .kotlin "class A \x7b\n  class B\n\x7d\n".toList)
      = inClass.declarations := by decide +kernel
  rw [Kotlin.parse_eq, hpackage, hdeclarations]
  rfl

theorem parse_inPackage : Kotlin.parse "b.kt".toList "package A\nclass B\n".toList = .ok inPackage := by
  have hpackage : (mask .kotlin "package A\nclass B\n".toList).splitLines.findSome? packageIn?
      = some "A".toList := by decide +kernel
  have hdeclarations : Kotlin.declarationsOf (mask .kotlin "package A\nclass B\n".toList)
      = inPackage.declarations := by decide +kernel
  rw [Kotlin.parse_eq, hpackage, hdeclarations]
  rfl

/-- Every text has a unit, whose declarations come line by line and meet the contract. What has a full
name is nested as it says, and only a member has a parent. Any units that are read from texts can be
bound. -/
theorem parse_nested (path text : Text) :
    (∃ unit, Kotlin.parse path text = .ok unit
      ∧ (∀ d ∈ unit.declarations, d.breach? = none)
      ∧ unit.declarations.Pairwise (·.startLine < ·.startLine)
      ∧ (∀ d ∈ unit.declarations, d.fullName ≠ none →
        ∃ names, Nested unit.package unit.declarations d names)
      ∧ ∀ d ∈ unit.declarations, d.scope ≠ .member → d.parent = none)
    ∧ ∀ units, (∀ u ∈ units, ∃ path text, parseUnit path text = .ok u) →
      ∀ exclude, ∃ b, declared units exclude = .ok b := by
  refine ⟨⟨_, Kotlin.parse_eq path text, ?_⟩, fun units hunits exclude => ?_⟩
  · have hregular := regular_of_parse (Kotlin.parse_eq path text)
    exact ⟨hregular.contract, hregular.ordered, fun d hd => (hregular.placed d hd).nested,
      fun d hd => (hregular.placed d hd).parent⟩
  · refine addUnits_ok (fun u hu => ?_) exclude []
    obtain ⟨path, text, hparse⟩ := hunits u hu
    exact regular_of_parseUnit hparse

theorem parse_nested_small :
    (∃ b, declared [inClass, inPackage] [] = .ok b)
      ∧ ∀ d ∈ inClass.declarations, d.fullName ≠ none → ∃ names, Nested none inClass.declarations d names := by
  obtain ⟨⟨unit, hparse, -, -, hnested, -⟩, hbound⟩ :=
    parse_nested "a.kt".toList "class A \x7b\n  class B\n\x7d\n".toList
  obtain rfl := Except.ok.inj (parse_inClass.symm.trans hparse)
  refine ⟨hbound [inClass, inPackage] (fun u hu => ?_) [], hnested⟩
  rcases List.mem_cons.mp hu with rfl | hu
  · have hkotlin : parseUnit "a.kt".toList = Kotlin.parse "a.kt".toList := rfl
    exact ⟨_, _, hkotlin ▸ parse_inClass⟩
  · obtain rfl := List.mem_singleton.mp hu
    have hkotlin : parseUnit "b.kt".toList = Kotlin.parse "b.kt".toList := rfl
    exact ⟨_, _, hkotlin ▸ parse_inPackage⟩

/-! ## Declarations at the top -/

/-- Whether some units bind a name to the class that a declaration at the top of a unit declares. -/
def BoundAtTop (units : List SourceUnit) (u : SourceUnit) (d : Declaration) (name : Text) : Prop :=
  ∃ b c, declared units [] = .ok b ∧ b.resolve name = some c
    ∧ c.internalName = ClassName.atTop u.package d.name

/-- The class of a name in the package of another unit that declares it is that of the declaration at
the top exactly if the packages are one. -/
theorem internalName_iff_of_declares (hu : Regular u) (hd : d ∈ u.declarations)
    (htop : d.scope = .topLevel) (hname : d.fullName = some name) (hv : Regular v)
    (hdeclares : v.declares name = true) :
    (ClassName.mk name v.package).internalName = ClassName.atTop u.package d.name
      ↔ v.package = u.package := by
  obtain ⟨segments, hsegments, hpackage⟩ := hu.package
  obtain ⟨segments', hsegments', hpackage'⟩ := hv.package
  -- the name as it is nested in the one unit, and in the other
  obtain ⟨names, hnested⟩ := (hu.placed d hd).nested (by simp [hname])
  have hfull := hnested.fullName
  rw [hnested.topLevel_iff.mp htop, hpackage, hname] at hfull
  obtain ⟨e, he, heq⟩ := List.any_eq_true.mp hdeclares
  have hename : e.fullName = some name := of_decide_eq_true heq
  obtain ⟨names', hnested'⟩ := (hv.placed e he).nested (by simp [hename])
  have hfull' := hnested'.fullName
  rw [hpackage', hename] at hfull'
  have hident : IsIdent d.name := (hu.placed d hd).isIdent (by simp [hname])
  have hnames' := hnested'.forall_name fun e he => (hv.placed e he).isIdent
  rw [hpackage, hpackage', Option.some.inj hfull']
  exact ClassName.internalName_eq_atTop_iff hsegments hsegments' hident hnames' hnested'.ne_nil
    (Option.some.inj (hfull.symm.trans hfull'))

theorem declares_of_find? (h : units.find? (·.declares name) = some u) : u.declares name = true := by
  simpa using List.find?_some h

theorem exists_find?_declares (hu : u ∈ units) (hd : d ∈ u.declarations)
    (hname : d.fullName = some name) : ∃ first, units.find? (·.declares name) = some first := by
  have hdeclares : u.declares name = true := List.any_eq_true.mpr ⟨d, hd, decide_eq_true hname⟩
  exact Option.isSome_iff_exists.mp (List.find?_isSome.mpr ⟨u, hu, hdeclares⟩)

/-- It is the first unit to declare the name that counts. -/
theorem boundAtTop_iff {first : SourceUnit} (hunits : ∀ v ∈ units, Regular v) (hu : Regular u)
    (hd : d ∈ u.declarations) (htop : d.scope = .topLevel) (hname : d.fullName = some name)
    (hfirst : units.find? (·.declares name) = some first) :
    BoundAtTop units u d name ↔ first.package = u.package := by
  obtain ⟨b, hb⟩ := addUnits_ok hunits [] []
  have hresolve : b.resolve name = some ⟨name, first.package⟩ := by
    rw [resolve_declared hb List.not_mem_nil, hfirst, Option.map_some]
  have hiff := internalName_iff_of_declares hu hd htop hname
    (hunits first (List.mem_of_find?_eq_some hfirst)) (declares_of_find? hfirst)
  rw [← hiff]
  constructor
  · rintro ⟨b', c, hb', hc, hinternal⟩
    obtain rfl := Except.ok.inj (hb'.symm.trans hb)
    obtain rfl := Option.some.inj (hc.symm.trans hresolve)
    exact hinternal
  · exact fun hinternal => ⟨b, _, hb, hresolve, hinternal⟩

/-- The name of a declaration at the top is bound to the class of that name in the package of the
first unit that declares it. That is the class the declaration declares exactly if this unit is of the
same package, and whatever the order of the units exactly if all that declare the name are. -/
theorem resolve_topLevel_iff (hunits : ∀ v ∈ units, ∃ path text, Kotlin.parse path text = .ok v)
    (hu : u ∈ units) (hd : d ∈ u.declarations) (htop : d.scope = .topLevel)
    (hname : d.fullName = some name) :
    ∃ b first, declared units [] = .ok b ∧ units.find? (·.declares name) = some first
      ∧ b.resolve name = some ⟨name, first.package⟩
      ∧ (BoundAtTop units u d name ↔ first.package = u.package)
      ∧ ((∀ us, us.Perm units → BoundAtTop us u d name)
        ↔ ∀ v ∈ units, v.declares name = true → v.package = u.package) := by
  have hregular : ∀ v ∈ units, Regular v := fun v hv => by
    obtain ⟨path, text, hparse⟩ := hunits v hv
    exact regular_of_parse hparse
  obtain ⟨b, hb⟩ := addUnits_ok hregular [] []
  obtain ⟨first, hfirst⟩ := exists_find?_declares hu hd hname
  refine ⟨b, first, hb, hfirst, ?_, boundAtTop_iff hregular (hregular u hu) hd htop hname hfirst, ?_⟩
  · rw [resolve_declared hb List.not_mem_nil, hfirst, Option.map_some]
  constructor
  · -- each unit that declares the name is the first one in some order
    intro h v hv hdeclares
    have hperm : (v :: units.erase v).Perm units := (List.perm_cons_erase hv).symm
    have hv_first : (v :: units.erase v).find? (·.declares name) = some v := by
      rw [List.find?_cons, hdeclares]
    exact (boundAtTop_iff (fun w hw => hregular w (hperm.subset hw)) (hregular u hu) hd htop hname
      hv_first).mp (h _ hperm)
  · intro h us hperm
    obtain ⟨first', hfirst'⟩ := exists_find?_declares (hperm.mem_iff.mpr hu) hd hname
    refine (boundAtTop_iff (fun w hw => hregular w (hperm.subset hw)) (hregular u hu) hd htop hname
      hfirst').mpr ?_
    exact h first' (hperm.subset (List.mem_of_find?_eq_some hfirst')) (declares_of_find? hfirst')

theorem forall_parse_small : ∀ v ∈ [inClass, inPackage], ∃ path text, Kotlin.parse path text = .ok v :=
  List.forall_mem_cons.mpr
    ⟨⟨_, _, parse_inClass⟩, List.forall_mem_singleton.mpr ⟨_, _, parse_inPackage⟩⟩

theorem resolve_topLevel_small :
    ∃ b first, declared [inClass, inPackage] [] = .ok b
      ∧ [inClass, inPackage].find? (·.declares "A.B".toList) = some first
      ∧ b.resolve "A.B".toList = some ⟨"A.B".toList, first.package⟩
      ∧ (BoundAtTop [inClass, inPackage] inPackage
          ⟨"class".toList, "B".toList, some "A.B".toList, .topLevel, 2, 2, none⟩ "A.B".toList
        ↔ first.package = inPackage.package)
      ∧ ((∀ us, us.Perm [inClass, inPackage] → BoundAtTop us inPackage
          ⟨"class".toList, "B".toList, some "A.B".toList, .topLevel, 2, 2, none⟩ "A.B".toList)
        ↔ ∀ v ∈ [inClass, inPackage], v.declares "A.B".toList = true → v.package = inPackage.package) :=
  resolve_topLevel_iff forall_parse_small (by simp) (List.mem_singleton.mpr rfl) rfl rfl

/-- The class at the top of a package is bound as the class in the class of another unit. -/
theorem not_boundAtTop_behind_inClass :
    ∃ units u d name, (∀ v ∈ units, ∃ path text, Kotlin.parse path text = .ok v) ∧ u ∈ units
      ∧ d ∈ u.declarations ∧ d.scope = .topLevel ∧ d.fullName = some name
      ∧ (∃ b c, declared units [] = .ok b ∧ b.resolve name = some c ∧ c.internalName = "A$B".toList)
      ∧ ClassName.atTop u.package d.name = "A/B".toList
      ∧ ¬ BoundAtTop units u d name := by
  refine ⟨[inClass, inPackage], inPackage, ⟨"class".toList, "B".toList, some "A.B".toList, .topLevel, 2, 2,
    none⟩, "A.B".toList, forall_parse_small, by simp, List.mem_singleton.mpr rfl, rfl, rfl, ?_, ?_, ?_⟩
  · exact ⟨_, _, rfl, rfl, by decide⟩
  · decide
  · rintro ⟨b, c, hb, hc, hinternal⟩
    obtain rfl := Except.ok.inj hb
    obtain rfl := Option.some.inj hc
    exact absurd hinternal (by decide)

end Binding

end Provenance
