/-
How declarations are nested.

The full name of a declaration is to tell what it is nested in: the package, then the names
of the declarations around it from the outermost to the innermost, and its own name at the
end. `Nested` says this of the declarations of a unit. Each of the declarations around must
be one of the unit, begin on an earlier line and not end before the next one begins.

The bodies that are open are kept as a stack, and nothing is said of how they lie to one
another: in a text whose braces do not match, a body may well end after the one around it.
What is kept is said of each body on its own (`Open`), and that is enough. A body is only
asked for a name while it is the innermost one, and by then all bodies before it on the stack
that ended too early have been taken off.
-/
import Provenance.Proofs.Outline.Contract
import Provenance.Proofs.Path

set_option autoImplicit false

namespace Provenance.Outline

variable {package : Option Text} {ds : List Declaration} {d outer : Declaration}
  {names : List Text} {full : Text}

/-! ## Full names -/

/-- The full name that some names, the outermost first, have in a package. -/
def fullNameOf (package : Option Text) (names : List Text) : Text :=
  Kotlin.qualify package (Text.join ['.'] names)

theorem fullNameOf_singleton (package : Option Text) (name : Text) :
    fullNameOf package [name] = Kotlin.qualify package name := by
  rw [fullNameOf, Text.join_singleton]

theorem fullNameOf_concat (package : Option Text) (hne : names ≠ []) (name : Text) :
    fullNameOf package (names ++ [name]) = Kotlin.qualify (some (fullNameOf package names)) name := by
  rw [fullNameOf, Text.join_concat ['.'] names name hne]
  cases package <;> simp [fullNameOf, Kotlin.qualify]

/-- The package that some segments make; no segments make none. -/
def packageOf : List Text → Option Text
  | [] => none
  | segment :: segments => some (Text.join ['.'] (segment :: segments))

/-- A full name is its segments, those of the package first, with dots between. -/
theorem fullNameOf_packageOf (segments : List Text) (hne : names ≠ []) :
    fullNameOf (packageOf segments) names = Text.join ['.'] (segments ++ names) := by
  cases segments with
  | nil => rfl
  | cons segment segments =>
    rw [Text.join_append ['.'] (List.cons_ne_nil segment segments) hne, List.append_assoc]
    rfl

/-- A package is identifiers with dots between. -/
theorem packageOf_of_findSome? (lines : List Text) :
    ∃ segments, (∀ s ∈ segments, IsIdent s) ∧ lines.findSome? packageIn? = packageOf segments := by
  rcases hpackage : lines.findSome? packageIn? with _ | p
  · exact ⟨[], by simp, rfl⟩
  · obtain ⟨line, -, hline⟩ := List.exists_of_findSome?_eq_some hpackage
    obtain ⟨segments, hne, hident, rfl⟩ := segments_of_packageIn? hline
    obtain ⟨segment, segments, rfl⟩ := List.exists_cons_of_ne_nil hne
    exact ⟨segment :: segments, hident, rfl⟩

/-- A full name of identifiers is not empty, and no blank is in it. -/
theorem solid_fullNameOf {segments : List Text} (hsegments : ∀ s ∈ segments, IsIdent s)
    (hnames : ∀ n ∈ names, IsIdent n) (hne : names ≠ []) :
    fullNameOf (packageOf segments) names ≠ []
      ∧ ∀ c ∈ fullNameOf (packageOf segments) names, isBlank c = false := by
  have hall : ∀ n ∈ segments ++ names, IsIdent n := fun n hn =>
    (List.mem_append.mp hn).elim (hsegments n) (hnames n)
  rw [fullNameOf_packageOf segments hne]
  constructor
  · obtain ⟨n, rest, hn⟩ := List.exists_cons_of_ne_nil (List.append_ne_nil_of_right_ne_nil segments hne)
    rw [hn] at hall ⊢
    have hfirst := (hall n List.mem_cons_self).ne_nil
    cases rest with
    | nil => rwa [Text.join_singleton]
    | cons m rest => simp [Text.join_cons]
  · intro c hc
    rcases Text.mem_join hc with hdot | ⟨n, hn, hcn⟩
    · rw [List.mem_singleton.mp hdot]
      decide
    · exact (hall n hn).not_isBlank c hcn

/-- A declaration of a unit is nested as its full name says: at the top, or directly in a declaration
that is nested as the rest of the name says, begins before it and ends no sooner than it begins. -/
inductive Nested (package : Option Text) (ds : List Declaration) : Declaration → List Text → Prop
  | topLevel {d : Declaration} : d ∈ ds → d.scope = .topLevel → d.parent = none →
      d.fullName = some (fullNameOf package [d.name]) → Nested package ds d [d.name]
  | member {outer d : Declaration} {names : List Text} : Nested package ds outer names → d ∈ ds →
      d.scope = .member → d.parent = outer.fullName →
      outer.startLine < d.startLine → d.startLine ≤ outer.endLine →
      d.fullName = some (fullNameOf package (names ++ [d.name])) →
      Nested package ds d (names ++ [d.name])

theorem Nested.ne_nil (h : Nested package ds d names) : names ≠ [] := by
  cases h <;> simp

theorem Nested.fullName (h : Nested package ds d names) :
    d.fullName = some (fullNameOf package names) := by
  cases h <;> assumption

/-- What is at the top has one name, and only that has. -/
theorem Nested.topLevel_iff (h : Nested package ds d names) : d.scope = .topLevel ↔ names = [d.name] := by
  cases h with
  | topLevel hd hscope hparent hfull => simp [hscope]
  | member houter hd hscope hparent hstart hend hfull => simp [hscope, houter.ne_nil]

/-- All names are names of declarations of the unit that have a full name. -/
theorem Nested.forall_name {P : Text → Prop} (h : Nested package ds d names)
    (hP : ∀ e ∈ ds, e.fullName ≠ none → P e.name) : ∀ n ∈ names, P n := by
  induction h with
  | topLevel hd hscope hparent hfull =>
    intro n hn
    rw [List.mem_singleton.mp hn]
    exact hP _ hd (by simp [hfull])
  | member houter hd hscope hparent hstart hend hfull ih =>
    intro n hn
    rcases List.mem_append.mp hn with hn | hn
    · exact ih n hn
    · rw [List.mem_singleton.mp hn]
      exact hP _ hd (by simp [hfull])

/-- What every declaration of a text meets: if it has a full name, it is nested as the name says;
if it has a parent, that is a declaration around it; and only a member has one. -/
structure Placed (package : Option Text) (ds : List Declaration) (d : Declaration) : Prop where
  nested : d.fullName ≠ none → ∃ names, Nested package ds d names
  around : ∀ parent, d.parent = some parent → ∃ outer names, Nested package ds outer names
    ∧ outer.fullName = some parent ∧ outer.startLine < d.startLine ∧ d.startLine ≤ outer.endLine
  parent : d.scope ≠ .member → d.parent = none
  isIdent : d.fullName ≠ none → IsIdent d.name

namespace Kotlin

variable {scan : BraceScan} {line depth : Nat} {opened : List OpenBody} {lines later : List Text}
  {depths : List Nat} {text : Text} {header : Header} {body : OpenBody}

/-! ## The declaration of a line -/

/-- The bodies that are open at a line. -/
def openAt (line : Nat) (opened : List OpenBody) : List OpenBody :=
  opened.dropWhile fun body => body.endLine < line

/-- The line on which the body ends of what a line declares. -/
def bodyEndAt? (scan : BraceScan) (line : Nat) (text : Text) (header : Header) (later : List Text) :
    Option Nat :=
  bodyEnd? scan headerLines 0 line (text.length - header.rest.length) header.rest later

/-- What a line declares. -/
def declarationAt (package : Option Text) (scan : BraceScan) (line : Nat) (opened : List OpenBody)
    (text : Text) (header : Header) (later : List Text) (depth : Nat) : Declaration where
  kind := kindOf header
  name := (nameOf header).getD anonymousName
  fullName := (nesting package (openAt line opened) depth (nameOf header)).2.2
  scope := (nesting package (openAt line opened) depth (nameOf header)).1
  startLine := line
  endLine := (bodyEndAt? scan line text header later).getD line
  parent := (nesting package (openAt line opened) depth (nameOf header)).2.1

/-- The bodies that are open after what a line declares. -/
def openAfter (package : Option Text) (scan : BraceScan) (line : Nat) (opened : List OpenBody)
    (text : Text) (header : Header) (later : List Text) (depth : Nat) : List OpenBody :=
  match bodyEndAt? scan line text header later with
  | some last => ⟨(declarationAt package scan line opened text header later depth).fullName, last,
      depth + 1⟩ :: openAt line opened
  | none => openAt line opened

theorem declarationsFrom_none (h : headerIn? text = none) :
    declarationsFrom package scan line opened (text :: later) (depth :: depths)
      = declarationsFrom package scan (line + 1) opened later depths := by
  rw [declarationsFrom, h]

theorem declarationsFrom_some (h : headerIn? text = some header) :
    declarationsFrom package scan line opened (text :: later) (depth :: depths)
      = declarationAt package scan line opened text header later depth
        :: declarationsFrom package scan (line + 1)
          (openAfter package scan line opened text header later depth) later depths := by
  rw [declarationsFrom, h]
  rfl

/-- What holds of the bodies that are open, from line to line, holds of what is declared in them. -/
theorem forall_mem_declarationsFrom {P : Nat → List OpenBody → Prop} {Q : Declaration → Prop}
    (hskip : ∀ line opened, P line opened → P (line + 1) opened)
    (hstep : ∀ line opened text header later depth, P line opened → headerIn? text = some header →
      declarationAt package scan line opened text header later depth ∈ ds →
      Q (declarationAt package scan line opened text header later depth)
        ∧ P (line + 1) (openAfter package scan line opened text header later depth))
    (h : P line opened)
    (hds : ∀ d ∈ declarationsFrom package scan line opened lines depths, d ∈ ds) :
    ∀ d ∈ declarationsFrom package scan line opened lines depths, Q d := by
  induction lines generalizing line opened depths with
  | nil => simp [declarationsFrom]
  | cons text later ih =>
    cases depths with
    | nil => simp [declarationsFrom]
    | cons depth depths =>
      rcases hheader : headerIn? text with _ | header
      · rw [declarationsFrom_none hheader] at hds ⊢
        exact ih (hskip line opened h) hds
      · rw [declarationsFrom_some hheader] at hds ⊢
        obtain ⟨hfirst, hrest⟩ := List.forall_mem_cons.mp hds
        obtain ⟨hQ, hP⟩ := hstep line opened text header later depth h hheader hfirst
        exact List.forall_mem_cons.mpr ⟨hQ, ih hP hrest⟩

/-- A declaration is what the line declares that it begins on. -/
theorem exists_declarationAt_of_mem (hd : d ∈ declarationsFrom package scan line opened lines depths) :
    ∃ (n : Nat) (text : Text) (header : Header) (around : List OpenBody) (later : List Text) (depth : Nat),
      lines[n]? = some text ∧ headerIn? text = some header
        ∧ d = declarationAt package scan (line + n) around text header later depth := by
  induction lines generalizing line opened depths with
  | nil => simp [declarationsFrom] at hd
  | cons text later ih =>
    cases depths with
    | nil => simp [declarationsFrom] at hd
    | cons depth depths =>
      have hcases : (∃ header, headerIn? text = some header
            ∧ d = declarationAt package scan line opened text header later depth)
          ∨ ∃ opened, d ∈ declarationsFrom package scan (line + 1) opened later depths := by
        rcases hheader : headerIn? text with _ | header
        · rw [declarationsFrom_none hheader] at hd
          exact .inr ⟨opened, hd⟩
        · rw [declarationsFrom_some hheader] at hd
          exact (List.mem_cons.mp hd).imp (fun hd => ⟨header, rfl, hd⟩) fun hd => ⟨_, hd⟩
      rcases hcases with ⟨header, hheader, hd⟩ | ⟨opened, hd⟩
      · exact ⟨0, text, header, opened, later, depth, rfl, hheader, hd⟩
      · obtain ⟨n, text', header, around, later', depth', htext, hheader, hd⟩ := ih hd
        refine ⟨n + 1, text', header, around, later', depth', htext, hheader, ?_⟩
        rwa [Nat.add_assoc, Nat.add_comm 1 n] at hd

/-! ## Nesting -/

/-- Where something stands: at the top, in some block, or in the innermost body. -/
theorem nesting_cases (package : Option Text) (opened : List OpenBody) (depth : Nat)
    (name : Option Text) :
    nesting package opened depth name = (.topLevel, none, name.map (qualify package))
      ∨ nesting package opened depth name = (.inBlock, none, none)
      ∨ ∃ body rest, opened = body :: rest ∧ nesting package opened depth name
        = (.member, body.fullName, body.fullName.bind fun outer => name.map (qualify (some outer))) := by
  unfold nesting
  split
  · exact .inl rfl
  split
  · exact .inr (.inl rfl)
  · rename_i body hbody
    obtain ⟨rest, rfl⟩ := List.head?_eq_some_iff.mp hbody
    split
    · exact .inr (.inr ⟨body, rest, rfl, rfl⟩)
    · exact .inr (.inl rfl)

/-- What has a full name has a name that is given on the line. -/
theorem nameOf_of_fullName
    (h : (declarationAt package scan line opened text header later depth).fullName = some full) :
    ∃ n, nameOf header = some n
      ∧ (declarationAt package scan line opened text header later depth).name = n := by
  rcases hname : nameOf header with _ | n
  · have hnone : (nesting package (openAt line opened) depth none).2.2 = some full := by
      rw [← hname]
      exact h
    rcases nesting_cases package (openAt line opened) depth none with
      hcase | hcase | ⟨body, rest, -, hcase⟩ <;> simp [hcase] at hnone
  · exact ⟨n, rfl, by simp only [declarationAt, hname, Option.getD_some]⟩

/-- What is open before a line and still open at it has not ended by then. -/
theorem line_le_of_head_openAt {rest : List OpenBody} (h : openAt line opened = body :: rest) :
    line ≤ body.endLine := by
  have hhead := List.head?_dropWhile_not (fun body : OpenBody => decide (body.endLine < line)) opened
  rw [openAt] at h
  rw [h] at hhead
  simpa using hhead

/-- A body that is open before a line, if it has a full name, is that of a declaration of the unit
that begins on an earlier line and is nested as the name says. -/
def Open (package : Option Text) (ds : List Declaration) (line : Nat) (body : OpenBody) : Prop :=
  ∀ full, body.fullName = some full → ∃ outer names, Nested package ds outer names
    ∧ outer.fullName = some full ∧ outer.startLine < line ∧ outer.endLine = body.endLine

theorem Open.next (h : Open package ds line body) : Open package ds (line + 1) body := by
  intro full hfull
  obtain ⟨outer, names, hnested, hname, hstart, hend⟩ := h full hfull
  exact ⟨outer, names, hnested, hname, by omega, hend⟩

/-- The innermost body has not ended, so its declaration is around the line. -/
theorem Open.around {rest : List OpenBody} (hopen : ∀ body ∈ opened, Open package ds line body)
    (hstack : openAt line opened = body :: rest) (hfull : body.fullName = some full) :
    ∃ outer names, Nested package ds outer names ∧ outer.fullName = some full
      ∧ outer.startLine < line ∧ (line : Int) ≤ outer.endLine := by
  have hbody : body ∈ opened :=
    (List.dropWhile_sublist _).subset (hstack ▸ List.mem_cons_self : body ∈ openAt line opened)
  obtain ⟨outer, names, hnested, houter, hstart, hend⟩ := hopen body hbody full hfull
  refine ⟨outer, names, hnested, houter, hstart, ?_⟩
  rw [hend]
  exact Int.ofNat_le.mpr (line_le_of_head_openAt hstack)

/-- The parent of what a line declares is the full name of a declaration around it. -/
theorem around_declarationAt (hopen : ∀ body ∈ opened, Open package ds line body)
    (hparent : (declarationAt package scan line opened text header later depth).parent = some full) :
    ∃ outer names, Nested package ds outer names ∧ outer.fullName = some full
      ∧ outer.startLine < line ∧ (line : Int) ≤ outer.endLine := by
  unfold declarationAt at hparent
  dsimp only at hparent
  rcases nesting_cases package (openAt line opened) depth (nameOf header) with
    hcase | hcase | ⟨body, rest, hstack, hcase⟩
  · simp [hcase] at hparent
  · simp [hcase] at hparent
  · rw [hcase] at hparent
    exact Open.around hopen hstack hparent

/-- What a line declares under a full name is nested as the name says. -/
theorem nested_declarationAt (hopen : ∀ body ∈ opened, Open package ds line body)
    (hmem : declarationAt package scan line opened text header later depth ∈ ds)
    (hfull : (declarationAt package scan line opened text header later depth).fullName = some full) :
    ∃ names, Nested package ds (declarationAt package scan line opened text header later depth) names := by
  obtain ⟨n, hname, hn⟩ := nameOf_of_fullName hfull
  rcases nesting_cases package (openAt line opened) depth (nameOf header) with
    hcase | hcase | ⟨body, rest, hstack, hcase⟩
  · -- no body is open, and the full name is the name behind the package
    refine ⟨_, .topLevel hmem ?_ ?_ ?_⟩
    · simp only [declarationAt, hcase]
    · simp only [declarationAt, hcase]
    · rw [hname] at hcase
      rw [hn, fullNameOf_singleton]
      simp only [declarationAt, hname, hcase, Option.map_some]
  · simp [declarationAt, hcase] at hfull
  · -- a member has a full name only where what is around it has one
    obtain ⟨outer, houter, -⟩ := Option.bind_eq_some_iff.mp
      ((congrArg (·.2.2) hcase).symm.trans hfull)
    obtain ⟨p, names, hnested, hp, hstart, hend⟩ := Open.around hopen hstack houter
    have hnames : outer = fullNameOf package names :=
      Option.some.inj (hp.symm.trans hnested.fullName)
    refine ⟨_, .member hnested hmem ?_ ?_ hstart hend ?_⟩
    · simp only [declarationAt, hcase]
    · simp only [declarationAt, hcase, houter, hp]
    · rw [hname] at hcase
      rw [hn, fullNameOf_concat package hnested.ne_nil, ← hnames]
      simp only [declarationAt, hname, hcase, houter, Option.bind_some, Option.map_some]

/-- The bodies that are open after what a line declares are those before it, and its own. -/
theorem open_openAfter (hopen : ∀ body ∈ opened, Open package ds line body)
    (hmem : declarationAt package scan line opened text header later depth ∈ ds) :
    ∀ body ∈ openAfter package scan line opened text header later depth,
      Open package ds (line + 1) body := by
  have hbefore : ∀ body ∈ openAt line opened, Open package ds (line + 1) body :=
    fun body hbody => (hopen body ((List.dropWhile_sublist _).subset hbody)).next
  unfold openAfter
  split
  · rename_i last hlast
    refine List.forall_mem_cons.mpr ⟨fun full hfull => ?_, hbefore⟩
    obtain ⟨names, hnested⟩ := nested_declarationAt hopen hmem hfull
    refine ⟨_, names, hnested, hfull, ?_, ?_⟩
    · exact Int.ofNat_lt.mpr (Nat.lt_succ_self line)
    · simp [declarationAt, hlast]
  · exact hbefore

theorem placed_declarationAt (hopen : ∀ body ∈ opened, Open package ds line body)
    (hheader : headerIn? text = some header)
    (hmem : declarationAt package scan line opened text header later depth ∈ ds) :
    Placed package ds (declarationAt package scan line opened text header later depth) where
  nested hnamed := by
    obtain ⟨full, hfull⟩ := Option.ne_none_iff_exists'.mp hnamed
    exact nested_declarationAt hopen hmem hfull
  around parent hparent := around_declarationAt hopen hparent
  parent hscope := by
    unfold declarationAt at hscope ⊢
    dsimp only at hscope ⊢
    rcases nesting_cases package (openAt line opened) depth (nameOf header) with
      hcase | hcase | ⟨body, rest, -, hcase⟩
    · rw [hcase]
    · rw [hcase]
    · rw [hcase] at hscope
      exact absurd rfl hscope
  isIdent hnamed := by
    obtain ⟨full, hfull⟩ := Option.ne_none_iff_exists'.mp hnamed
    obtain ⟨n, hname, hn⟩ := nameOf_of_fullName hfull
    rw [hn]
    exact isIdent_of_nameOf hheader hname

theorem placed_of_mem_declarationsOf (masked : Text) : ∀ d ∈ declarationsOf masked,
    Placed (masked.splitLines.findSome? packageIn?) (declarationsOf masked) d := by
  refine forall_mem_declarationsFrom (P := fun line opened => ∀ body ∈ opened,
    Open (masked.splitLines.findSome? packageIn?) (declarationsOf masked) line body)
    (fun line opened h body hbody => (h body hbody).next) ?_ (by simp) fun _ hd => hd
  intro line opened text header later depth hopen hheader hmem
  exact ⟨placed_declarationAt hopen hheader hmem, open_openAfter hopen hmem⟩

/-! ## Lines -/

theorem line_le_of_mem_declarationsFrom
    (hd : d ∈ declarationsFrom package scan line opened lines depths) : (line : Int) ≤ d.startLine := by
  obtain ⟨n, text, header, around, later, depth, -, -, rfl⟩ := exists_declarationAt_of_mem hd
  exact Int.ofNat_le.mpr (Nat.le_add_right line n)

/-- Each line declares at most one thing, and the declarations come in the order of their lines. -/
theorem pairwise_declarationsFrom :
    (declarationsFrom package scan line opened lines depths).Pairwise
      (·.startLine < ·.startLine) := by
  induction lines generalizing line opened depths with
  | nil => simp [declarationsFrom]
  | cons text later ih =>
    cases depths with
    | nil => simp [declarationsFrom]
    | cons depth depths =>
      rcases hheader : headerIn? text with _ | header
      · rw [declarationsFrom_none hheader]
        exact ih
      · rw [declarationsFrom_some hheader]
        refine List.pairwise_cons.mpr ⟨fun d hd => ?_, ih⟩
        have hnext := line_le_of_mem_declarationsFrom hd
        show (line : Int) < d.startLine
        omega

theorem pairwise_declarationsOf (masked : Text) :
    (declarationsOf masked).Pairwise (·.startLine < ·.startLine) :=
  pairwise_declarationsFrom

/-! ## Units -/

/-- No blanks are taken off what a text declares. -/
theorem trimmed_of_mem_declarationsOf {masked : Text} (hd : d ∈ declarationsOf masked) :
    d.trimmed = d := by
  obtain ⟨segments, hsegments, hpackage⟩ := packageOf_of_findSome? masked.splitLines
  have hplaced := placed_of_mem_declarationsOf masked
  rw [hpackage] at hplaced
  -- a full name is put together of identifiers, and these have no blanks
  have hsolid : ∀ e names, Nested (packageOf segments) (declarationsOf masked) e names →
      trimmed? e.fullName = e.fullName := by
    intro e names hnested
    obtain ⟨hne, hblank⟩ := solid_fullNameOf hsegments
      (hnested.forall_name fun e he => (hplaced e he).isIdent) hnested.ne_nil
    rw [hnested.fullName, trimmed?, Option.map_some, Text.trim_eq_self hblank]
    split
    · rename_i hnil
      exact absurd (Option.some.inj hnil) hne
    · rfl
  have hfull : trimmed? d.fullName = d.fullName := by
    by_cases hnamed : d.fullName = none
    · rw [hnamed]
      rfl
    · obtain ⟨names, hnested⟩ := (hplaced d hd).nested hnamed
      exact hsolid d names hnested
  have hparent : trimmed? d.parent = d.parent := by
    rcases hp : d.parent with _ | p
    · rfl
    · -- a parent is the full name of what is around
      obtain ⟨outer, names, hnested, houter, -, -⟩ := (hplaced d hd).around p hp
      rw [← houter]
      exact hsolid outer names hnested
  rw [Declaration.trimmed, hfull, hparent]

/-- The declarations of a text are in order, and meet the contract, as they are found. -/
theorem arrange_declarationsOf (masked : Text) :
    arrange (declarationsOf masked) = .ok (declarationsOf masked) := by
  refine arrange_eq_self (breach?_of_mem_declarationsOf masked)
    (fun d hd => trimmed_of_mem_declarationsOf hd) ?_
  refine (pairwise_declarationsOf masked).imp fun {d e} h => ?_
  have hlt : compare d.startLine e.startLine = .lt := Int.compare_eq_lt.mpr h
  rw [Declaration.order, hlt]
  rfl

theorem parse_eq (path text : Text) : parse path text = .ok {
    path := path
    package := (mask .kotlin text).splitLines.findSome? packageIn?
    declarations := declarationsOf (mask .kotlin text)
    digest := Digest.ofText text } := by
  unfold parse
  dsimp only
  rw [arrange_declarationsOf]
  rfl

end Kotlin

/-- What holds of a unit that is read from a text: its package is of identifiers, and its declarations
come line by line, meet the contract and are nested as they say. -/
structure Regular (u : SourceUnit) : Prop where
  package : ∃ segments, (∀ s ∈ segments, IsIdent s) ∧ u.package = packageOf segments
  ordered : u.declarations.Pairwise (·.startLine < ·.startLine)
  contract : ∀ d ∈ u.declarations, d.breach? = none
  placed : ∀ d ∈ u.declarations, Placed u.package u.declarations d

theorem regular_of_parse {path text : Text} {u : SourceUnit} (h : Kotlin.parse path text = .ok u) :
    Regular u := by
  rw [Kotlin.parse_eq] at h
  obtain rfl := Except.ok.inj h
  refine ⟨packageOf_of_findSome? _, Kotlin.pairwise_declarationsOf _, fun d hd => ?_,
    Kotlin.placed_of_mem_declarationsOf _⟩
  have hcontract := Kotlin.breach?_of_mem_declarationsOf (mask .kotlin text) d hd
  rwa [Kotlin.trimmed_of_mem_declarationsOf hd] at hcontract

theorem regular_of_parseUnit {path text : Text} {u : SourceUnit} (h : parseUnit path text = .ok u) :
    Regular u := by
  have hbare : Regular (.bare path text) :=
    ⟨⟨[], by simp, rfl⟩, List.Pairwise.nil, by simp [SourceUnit.bare], by simp [SourceUnit.bare]⟩
  unfold parseUnit at h
  split at h
  · rename_i language hselect
    rcases kotlin_or_plain hselect with rfl | rfl
    · exact regular_of_parse h
    · exact Except.ok.inj h ▸ hbare
  · exact Except.ok.inj h ▸ hbare

/-- A unit has the path of the file that it is read from. -/
theorem path_of_parseUnit {path text : Text} {u : SourceUnit} (h : parseUnit path text = .ok u) :
    u.path = path := by
  unfold parseUnit at h
  split at h
  · rename_i language hselect
    rcases kotlin_or_plain hselect with rfl | rfl
    · have hkotlin : Kotlin.parse path text = .ok u := h
      rw [Kotlin.parse_eq] at hkotlin
      exact Except.ok.inj hkotlin ▸ rfl
    · exact Except.ok.inj h ▸ rfl
  · exact Except.ok.inj h ▸ rfl

end Provenance.Outline
