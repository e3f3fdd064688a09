/-
Every run has an answer.

Whoever starts the program reads one line and an exit status, and goes by both. A run
classifies what has happened if it ends with an answer that is written on one line, and
if the status goes with what the answer says: zero with success, one with an update that
was refused or ended early, two with something given that cannot be used (`Classifies`).

An answer is never at odds with its status. So a run classifies exactly if it has an
answer at all, and `classified_iff` says when it has none: when its command strays.
-/
import Provenance.Proofs.CommandLine.Failures
import Provenance.Proofs.Journal

set_option autoImplicit false

namespace Provenance.CommandLine

open Action Json

variable {answer result : Json} {status : Nat} {s s' : Session} {o : Options} {h : Host}
  {args : List Text}

/-! ## What an answer says -/

/-- Whether an answer says that the run went well. -/
def saysOk (answer : Json) : Bool :=
  match answer.get? "ok".toList with
  | some (.bool ok) => ok
  | _ => false

/-- The code of the error that an answer tells of. -/
def codeOf? (answer : Json) : Option Text :=
  ((answer.get? "error".toList).bind (·.get? "code".toList)).bind Json.text?

/-- The codes of updates that were refused or ended early. -/
def updateCodes : List Text :=
  ["ARTIFACT_PATH_BLOCKED".toList, "UNTRACKED_SOURCE".toList, "UPDATE_ABORTED".toList]

/-- An answer is written on one line, and the exit status is that of what it says. -/
structure Classifies (answer : Json) (status : Nat) : Prop where
  oneLine : answer.OnOneLine
  bound : status ≤ 2
  zero_iff : status = 0 ↔ saysOk answer = true
  one_iff : status = 1 ↔ ∃ code ∈ updateCodes, codeOf? answer = some code
  two_iff : status = 2 ↔ codeOf? answer = some "INVALID_INPUT".toList

instance (answer : Json) (status : Nat) : Decidable (Classifies answer status) :=
  decidable_of_iff (answer.OnOneLine ∧ status ≤ 2
      ∧ (status = 0 ↔ saysOk answer = true)
      ∧ (status = 1 ↔ ∃ code ∈ updateCodes, codeOf? answer = some code)
      ∧ (status = 2 ↔ codeOf? answer = some "INVALID_INPUT".toList))
    ⟨fun ⟨h₁, h₂, h₃, h₄, h₅⟩ => ⟨h₁, h₂, h₃, h₄, h₅⟩, fun ⟨h₁, h₂, h₃, h₄, h₅⟩ => ⟨h₁, h₂, h₃, h₄, h₅⟩⟩

/-- A run has ended with an answer that classifies. -/
def Classified : Except Failure Outcome → Prop
  | .ok (.answer value status) => Classifies value status
  | _ => False

instance : (r : Except Failure Outcome) → Decidable (Classified r)
  | .ok (.answer value status) => inferInstanceAs (Decidable (Classifies value status))
  | .ok (.usage _) => inferInstanceAs (Decidable False)
  | .error _ => inferInstanceAs (Decidable False)

/-- A success is answered with zero. -/
theorem classifies_success (h : result.OnOneLine) : Classifies (success result) 0 where
  oneLine := onOneLine_obj (by simpa using ⟨h, onOneLine_ofText? none⟩)
  bound := by omega
  zero_iff := iff_of_true rfl rfl
  one_iff := iff_of_false (by omega) (by rintro ⟨code, -, hcode⟩; exact nomatch hcode)
  two_iff := iff_of_false (by omega) fun hcode => nomatch hcode

theorem onOneLine_refusal (code : String) (message : Text) : (refusal code message).OnOneLine := by
  have hresult : OnOneLine (.obj []) := onOneLine_obj (by simp)
  have herror : OnOneLine (.obj [field "code" (.str code.toList), field "message" (.str message)]) :=
    onOneLine_obj (by simp)
  exact onOneLine_obj (by simpa using ⟨hresult, herror⟩)

/-- A verdict is one of four. -/
theorem verdict_cases {c : Cause} {code : String} (hc : verdict c = some (code, status)) :
    (status = 1 ∧ code.toList ∈ updateCodes) ∨ (status = 2 ∧ code = "INVALID_INPUT") := by
  unfold verdict at hc
  split at hc
  case h_1 | h_2 | h_3 =>
    obtain ⟨rfl, rfl⟩ := Prod.mk.inj (Option.some.inj hc)
    exact .inl ⟨rfl, by decide⟩
  all_goals first
    | exact .inr ⟨(Prod.mk.inj (Option.some.inj hc)).2.symm, (Prod.mk.inj (Option.some.inj hc)).1.symm⟩
    | simp at hc

/-- A verdict is answered with its own status. -/
theorem classifies_refusal {c : Cause} {code : String} (hc : verdict c = some (code, status))
    (message : Text) : Classifies (refusal code message) status := by
  have hcode : codeOf? (refusal code message) = some code.toList := rfl
  have hok : saysOk (refusal code message) = false := rfl
  have hapart : "INVALID_INPUT".toList ∉ updateCodes := by decide
  rcases verdict_cases hc with ⟨rfl, hupdate⟩ | ⟨rfl, rfl⟩
  · refine ⟨onOneLine_refusal _ _, by omega, ?_, iff_of_true rfl ⟨_, hupdate, hcode⟩, ?_⟩
    · rw [hok]
      exact iff_of_false (by omega) (by simp)
    · refine iff_of_false (by omega) fun h => hapart ?_
      rw [hcode] at h
      exact Option.some.inj h ▸ hupdate
  · refine ⟨onOneLine_refusal _ _, by omega, ?_, ?_, iff_of_true rfl hcode⟩
    · rw [hok]
      exact iff_of_false (by omega) (by simp)
    · refine iff_of_false (by omega) ?_
      rintro ⟨code, hupdate, h⟩
      rw [hcode] at h
      exact hapart (Option.some.inj h ▸ hupdate)

/-! ## Results are written on one line -/

theorem onOneLine_report (r : Report) : r.toJson.OnOneLine := by
  have hfailures : OnOneLine (.arr (r.sweep.failures.map fun f =>
      .obj [field "key" (.str f.key), field "reason" (.str f.reason)])) :=
    onOneLine_arr (List.forall_mem_map.mpr fun f _ => onOneLine_obj (by simp))
  exact onOneLine_obj (by simpa using hfailures)

theorem onOneLine_showDeclaration (d : Outline.Declaration) : (showDeclaration d).OnOneLine :=
  onOneLine_obj (by simp)

theorem onOneLine_showUnits {l : Update.Layout} {b : Binding} {units : List Outline.SourceUnit}
    {files : List Json} (h : showUnits l b units = .ok files) : ∀ j ∈ files, j.OnOneLine := by
  induction units generalizing files with
  | nil =>
    obtain rfl := Except.ok.inj h
    exact fun _ hj => nomatch hj
  | cons u units ih =>
    unfold showUnits at h
    split at h
    · exact nomatch h
    rename_i shown hshown
    rcases hrest : showUnits l b units with c | files'
    · rw [hrest] at h
      exact nomatch h
    rw [hrest] at h
    obtain rfl := Except.ok.inj h
    obtain ⟨locations, -, hshown⟩ := except_bind_ok_iff.mp hshown
    obtain ⟨keys, -, hshown⟩ := except_bind_ok_iff.mp hshown
    obtain rfl := Except.ok.inj hshown
    rw [List.forall_mem_cons]
    have hdeclarations : OnOneLine (.arr (u.declarations.map showDeclaration)) :=
      onOneLine_arr (List.forall_mem_map.mpr fun d _ => onOneLine_showDeclaration d)
    exact ⟨onOneLine_obj (by simpa using hdeclarations), ih hrest⟩

/-- Whatever a command results in is written on one line. -/
theorem onOneLine_command {c : Command} (hr : (command c).runOn s = (.ok answer, s')) :
    answer.OnOneLine := by
  cases c with
  | sync manifest affected =>
    obtain ⟨_, _, -, hr⟩ := bind_ok_iff.mp (show (sync manifest affected).runOn s = _ from hr)
    obtain ⟨_, _, -, hr⟩ := bind_ok_iff.mp hr
    obtain ⟨_, _, -, hr⟩ := bind_ok_iff.mp hr
    obtain ⟨report, _, -, hr⟩ := bind_ok_iff.mp hr
    obtain rfl := Except.ok.inj (Prod.mk.inj hr).1
    exact onOneLine_report report
  | outline paths =>
    obtain ⟨⟨_, unknown⟩, _, -, hr⟩ := bind_ok_iff.mp (show (outline paths).runOn s = _ from hr)
    obtain ⟨_, _, -, hr⟩ := bind_ok_iff.mp hr
    obtain ⟨_, _, -, hr⟩ := bind_ok_iff.mp hr
    obtain ⟨files, _, hfiles, hr⟩ := bind_ok_iff.mp hr
    obtain rfl := Except.ok.inj (Prod.mk.inj hr).1
    have hshown : OnOneLine (.arr files) :=
      onOneLine_arr (onOneLine_showUnits (ofExcept_ok_iff.mp hfiles).1)
    exact onOneLine_obj (by simpa using hshown)

theorem onOneLine_runCommand {h' : Host} (hr : (runCommand o).runOn h = (.ok answer, h')) :
    answer.OnOneLine := by
  obtain ⟨_, _, -, hr⟩ := bind_ok_iff.mp hr
  obtain ⟨_, _, -, hr⟩ := bind_ok_iff.mp hr
  obtain ⟨_, _, -, hr⟩ := bind_ok_iff.mp hr
  obtain ⟨project, h₁, -, hr⟩ := bind_ok_iff.mp hr
  change (((command o.command).runOn ⟨h₁, project⟩).1, ((command o.command).runOn ⟨h₁, project⟩).2.host)
    = (.ok answer, h') at hr
  exact onOneLine_command (Prod.ext (Prod.mk.inj hr).1 rfl)

/-! ## Runs -/

/-- A run answers what its command ends with, if there is an answer to that. -/
theorem run_eq (hargs : readArguments args = .ok o) : (run args).runOn h
    = match (runCommand o).runOn h with
      | (.ok result, h') => (.ok (.answer (success result) 0), h')
      | (.error f, h') => match verdict f.cause with
        | some (code, status) => (.ok (.answer (refusal code f.cause.message) status), h')
        | none => (.error f, h') := by
  unfold run
  rw [hargs]
  dsimp only
  rw [runOn_bind, runOn_attempt]
  rcases (runCommand o).runOn h with ⟨f | result, h'⟩
  · dsimp only
    cases verdict f.cause <;> rfl
  · rfl

/-- Where faults are failed calls, a run whose arguments make sense ends with one line and the status
that goes with it, unless its command strays; then the failure of the command is that of the run. -/
theorem classified_iff (hargs : readArguments args = .ok o) (hd : h.disk.Legal) (hio : h.OnlyIo) :
    Classified ((run args).runOn h).1
      ↔ ¬∃ f h', (runCommand o).runOn h = (.error f, h') ∧ Strays o h.disk f.cause := by
  have hfails := runCommand_fails (o := o) hd hio
  rw [run_eq hargs]
  rcases hr : (runCommand o).runOn h with ⟨f | result, h'⟩
  · -- a failure has an answer if it has a verdict, and what strays has none
    rw [hr] at hfails
    dsimp only
    rcases hv : verdict f.cause with _ | ⟨code, status⟩
    · refine iff_of_false not_false fun hnot => hnot ⟨f, h', rfl, ?_⟩
      exact hfails.resolve_left fun h => by simp [hv] at h
    · refine iff_of_true (classifies_refusal hv _) ?_
      rintro ⟨g, h₁, heq, hstrays⟩
      obtain ⟨rfl, -⟩ : f = g ∧ h' = h₁ := by simpa using heq
      exact nomatch hv.symm.trans hstrays.verdict_eq
  · refine iff_of_true (classifies_success (onOneLine_runCommand hr)) ?_
    rintro ⟨f, h₁, heq, -⟩
    simp at heq

/-- Arguments that ask for the outline of a source, in the project at some root. -/
def smallArguments (root : String) : List Text :=
  ["--project-root".toList, root.toList, "outline".toList, "src/A.kt".toList]

theorem exists_of_isOk (h : (readArguments args).isOk = true) : ∃ o, readArguments args = .ok o := by
  rcases hread : readArguments args with stop | o
  · rw [hread] at h
    exact nomatch h
  · exact ⟨o, rfl⟩

/-- In the small project a run with them ends so, and does not stray. -/
theorem classified_small : ∃ o, readArguments (smallArguments "/p") = .ok o
    ∧ Classified ((run (smallArguments "/p")).runOn (Session.idle (Session.smallTree []))).1
    ∧ ¬∃ f h', (runCommand o).runOn (Session.idle (Session.smallTree [])) = (.error f, h')
      ∧ Strays o (Session.idle (Session.smallTree [])).disk f.cause := by
  have hclassified : Classified ((run (smallArguments "/p")).runOn
      (Session.idle (Session.smallTree []))).1 := by
    decide +kernel
  have hread : (readArguments (smallArguments "/p")).isOk = true := by decide +kernel
  obtain ⟨o, ho⟩ := exists_of_isOk hread
  have hiff := classified_iff ho (Session.legal_idle (t := Session.smallTree []) (by decide +kernel)
    (by decide +kernel)) (Session.onlyIo_idle _)
  exact ⟨o, ho, hclassified, hiff.mp hclassified⟩

/-- The small project with a link in it that leads to itself. -/
def loopTree : Tree :=
  Session.smallTree [(["p".toList, "loop".toList], .link ⟨.root, ["p".toList, "loop".toList]⟩)]

/-- A run on a project root in a loop of links ends in the failure, and has no answer. -/
theorem not_classified_in_loop :
    (Session.idle loopTree).disk.Legal ∧ (Session.idle loopTree).OnlyIo
      ∧ (∃ o, readArguments (smallArguments "/p/loop") = .ok o)
      ∧ (∃ f h', (run (smallArguments "/p/loop")).runOn (Session.idle loopTree) = (.error f, h')
        ∧ f.cause = .linkLoop "/p/loop".toList)
      ∧ ¬Classified ((run (smallArguments "/p/loop")).runOn (Session.idle loopTree)).1 := by
  have hends : decide (Ends ((run (smallArguments "/p/loop")).runOn (Session.idle loopTree))
      (fun _ _ => False) fun f _ => f.cause = .linkLoop "/p/loop".toList) = true := by
    decide +kernel
  refine ⟨Session.legal_idle (by decide +kernel) (by decide +kernel), Session.onlyIo_idle _,
    exists_of_isOk (by decide +kernel), ?_⟩
  rcases hr : (run (smallArguments "/p/loop")).runOn (Session.idle loopTree) with ⟨f | outcome, h'⟩
  · rw [hr] at hends
    exact ⟨⟨f, h', rfl, of_decide_eq_true hends⟩, fun h => h⟩
  · rw [hr] at hends
    exact (of_decide_eq_true hends).elim

end Provenance.CommandLine
