/-
Lines that are read.

A journal is read line by line, and what a line gives does not depend on the other lines: nothing,
if it is blank or malformed, else a record, or the failure of the whole reading. So what is read of
two parts of a journal, one behind the other, is put together from what is read of each. A line
that is made of an event gives the record of the event.
-/
import Provenance.Proofs.JournalContent
import Provenance.Proofs.Json.Written
import Provenance.Proofs.Outline.Identifier
import Provenance.Proofs.Text.Blocks

set_option autoImplicit false

namespace Provenance

/-! ## Margins -/

namespace Text

variable {c d : Char} {t : Text}

/-- Blanks before a text that begins and ends with other characters are all that is trimmed. -/
theorem trim_append_of_ends (hc : isBlank c = false) (hd : isBlank d = false) (w t : Text) :
    (w ++ (c :: t ++ [d])).trim = w.trimLeft ++ (c :: t ++ [d]) := by
  have hleft : (w ++ (c :: t ++ [d])).trimLeft = w.trimLeft ++ (c :: t ++ [d]) := by
    induction w with
    | nil => rw [List.nil_append, trimLeft, List.cons_append, List.dropWhile_cons, hc]; rfl
    | cons b w ih =>
      rw [List.cons_append, trimLeft, trimLeft, List.dropWhile_cons, List.dropWhile_cons]
      cases hb : isBlank b with
      | true => exact ih
      | false => rfl
  rw [trim, hleft, trimRight, dropRightWhile, ← List.append_assoc, List.reverse_append,
    List.reverse_singleton, List.singleton_append, List.dropWhile_cons, hd]
  simp

theorem trimLeft_eq_nil (h : t.trim = []) : t.trimLeft = [] := by
  refine List.dropWhile_eq_nil_iff.mpr fun c hc => ?_
  by_contra hblank
  exact trim_ne_nil hc (Bool.eq_false_iff.mpr hblank) h

/-- The lines of a text, whichever breaks it has. -/
def linesOf (t : Text) : List Text := splitOn '\n' t.unifyBreaks

theorem linesOf_ne_nil (t : Text) : linesOf t ≠ [] := splitOn_ne_nil _ _

/-- A carriage return at the end of a text ends a line. -/
theorem linesOf_eq (t : Text) : linesOf t = splitOn '\n' t.settled.unifyBreaks
    ∨ linesOf t = splitOn '\n' t.settled.unifyBreaks ++ [[]] := by
  rcases List.eq_nil_or_concat t with rfl | ⟨u, c, rfl⟩
  · exact .inl rfl
  rw [List.concat_eq_append]
  by_cases hc : c = '\r'
  · subst hc
    obtain ⟨before, last, hlines⟩ : ∃ before last, splitOn '\n' (unifyBreaks u) = before ++ [last] :=
      (List.eq_nil_or_concat' _).resolve_left (splitOn_ne_nil _ _)
    have hlast : '\n' ∉ last := not_mem_of_mem_splitOn '\n' (unifyBreaks u) last (by
      rw [hlines]
      exact List.mem_append_right before (List.mem_singleton_self last))
    have hunify : unifyBreaks (u ++ ['\r']) = unifyBreaks u ++ ['\n'] :=
      unifyBreaks_append fun _ _ w hw => absurd (List.cons.inj hw).1 (by decide)
    refine .inr ?_
    rw [settled_concat_return, linesOf, hunify, splitOn_append_of_concat hlines, splitOn_append hlast, hlines,
      List.append_assoc]
    rfl
  · rw [settled, endsWith_concat, if_neg (by simpa using hc)]
    exact .inl rfl

end Text

namespace Journal

variable {since : Option Text} {line : Text} {lines : List Text} {record : Json}

/-! ## Line by line -/

/-- What a single line gives. A blank line is as good as a malformed one. -/
theorem recordsIn_singleton (since : Option Text) (line : Text) :
    recordsIn since [line] = match Json.read line.trim with
      | .error .malformed => .ok []
      | .error e => .error (.json e)
      | .ok record => (isSince since record).map fun counts => if counts then [record] else [] := by
  rw [recordsIn]
  cases hbody : line.trim with
  | nil => rfl
  | cons c body =>
    dsimp only
    rcases Json.read (c :: body) with (_ | _ | _) | record
    · rfl
    · rfl
    · rfl
    · dsimp only
      rcases isSince since record with _ | _ | _ <;> rfl

theorem recordsIn_cons (since : Option Text) (line : Text) (lines : List Text) :
    recordsIn since (line :: lines)
      = (recordsIn since [line]).bind fun records => (recordsIn since lines).map (records ++ ·) := by
  have hid : (recordsIn since lines).map (([] : List Json) ++ ·) = recordsIn since lines := by
    cases recordsIn since lines <;> rfl
  rw [recordsIn_singleton, recordsIn]
  cases hbody : line.trim with
  | nil => exact hid.symm
  | cons c body =>
    dsimp only
    rcases Json.read (c :: body) with (_ | _ | _) | record
    · exact hid.symm
    · rfl
    · rfl
    · dsimp only
      rcases isSince since record with _ | _ | _
      · rfl
      · exact hid.symm
      · rfl

theorem recordsIn_append (since : Option Text) (lines lines' : List Text) :
    recordsIn since (lines ++ lines')
      = (recordsIn since lines).bind fun records => (recordsIn since lines').map (records ++ ·) := by
  induction lines with
  | nil =>
    rw [List.nil_append]
    cases h : recordsIn since lines' <;> rfl
  | cons line lines ih =>
    rw [List.cons_append, recordsIn_cons, ih, recordsIn_cons since line lines]
    cases recordsIn since [line] <;> cases recordsIn since lines <;> cases recordsIn since lines' <;>
      simp [Except.bind, Except.map]

/-- An empty line at the end gives nothing. -/
theorem recordsIn_concat_nil (since : Option Text) (lines : List Text) :
    recordsIn since (lines ++ [[]]) = recordsIn since lines := by
  rw [recordsIn_append]
  cases recordsIn since lines with
  | error e => rfl
  | ok records => exact congrArg Except.ok (List.append_nil records)

/-- **What a journal that is encoded text gives** is what the lines of the text give. -/
theorem recordsOf_encode (since : Option Text) (t : Text) :
    recordsOf since (Utf8.encode t) = recordsIn since (Text.linesOf t) := by
  have hlines : recordsIn since (Text.linesOf t) = recordsIn since (Text.splitOn '\n' t.settled.unifyBreaks) := by
    rcases Text.linesOf_eq t with h | h
    · rw [h]
    · rw [h, recordsIn_concat_nil]
  rw [recordsOf, Blocks.lines_encode, hlines]
  dsimp only
  cases recordsIn since (Text.splitOn '\n' t.settled.unifyBreaks) <;> rfl

/-- Nothing gives no records. -/
theorem recordsOf_nil (since : Option Text) : recordsOf since [] = .ok [] := recordsOf_encode since []

end Journal

/-! ## Lines of events -/

namespace Event

variable {e : Event}

/-- The event can be written and be read back. Its texts always can; of its metadata, which nest one
level less than the event, see `Json.Fits`. -/
def Fits (e : Event) : Prop := (Json.obj e.metadata).Fits (maxNesting - 1)

/-- The event as it is read back: its fields come in the order of their names. -/
def record (e : Event) : Json := e.toJson.sortFields

/-- The names of its fields. -/
theorem nodup_names : (["timestamp".toList, "cycle_id".toList, "operation".toList, "ok".toList,
    "error_code".toList, "metadata".toList] : List Text).Nodup := by
  decide

theorem fits_toJson (h : e.Fits) : e.toJson.Fits maxNesting := by
  refine Json.fits_obj.mpr ⟨maxNesting - 1, rfl, nodup_names, ?_⟩
  have hcode : (Json.ofText? e.errorCode).Fits (maxNesting - 1) := by
    cases e.errorCode <;> exact trivial
  simp only [List.forall_mem_cons, Json.field_snd]
  exact ⟨trivial, trivial, trivial, trivial, hcode, h, fun f hf => absurd hf List.not_mem_nil⟩

theorem read_line (h : e.Fits) : Json.read e.line = .ok e.record := Json.read_renderSorted (fits_toJson h)

/-- The line of an event is plain text, so that no break can be in it. -/
theorem plain_line (h : e.Fits) : Json.Plain e.line := (Json.fits_sortFields (fits_toJson h)).plain

/-- The line begins with the brace and the first name, and ends with a brace. -/
theorem exists_line (e : Event) : ∃ u, e.line = '\x7b' :: ('"' :: 'c' :: u) ++ ['\x7d'] := ⟨_, rfl⟩

theorem trim_append_line (e : Event) (w : Text) : (w ++ e.line).trim = w.trimLeft ++ e.line := by
  obtain ⟨u, hu⟩ := e.exists_line
  rw [hu]
  exact Text.trim_append_of_ends (by decide) (by decide) w _

/-- Whether the event is not before a time. -/
def isSince (since : Option Text) (e : Event) : Bool :=
  since.all fun start => (compare start e.timestamp).isLE

theorem isSince_record (since : Option Text) (e : Event) :
    Journal.isSince since e.record = .ok (e.isSince since) := by
  cases since <;> rfl

/-- A line that holds an event and blanks alone gives the record of the event, if that is asked for. -/
theorem recordsIn_line (h : e.Fits) {w : Text} (hw : w.trim = []) (since : Option Text) :
    Journal.recordsIn since [w ++ e.line] = .ok (if e.isSince since then [e.record] else []) := by
  rw [Journal.recordsIn_singleton, trim_append_line, Text.trimLeft_eq_nil hw, List.nil_append, read_line h]
  dsimp only
  rw [isSince_record]
  rfl

end Event

/-! ## An event behind a text -/

namespace Text

variable {t line last : Text} {before : List Text}

/-- A line behind a text goes on where the last line of the text has not ended. -/
theorem linesOf_append_line (hbefore : linesOf t = before ++ [last]) (hplain : Json.Plain line)
    (hne : line ≠ []) : linesOf (t ++ (line ++ ['\n'])) = before ++ [last ++ line, []] := by
  have hfeed : '\n' ∉ line := fun h => absurd (hplain _ h) (by decide)
  have hreturn : '\r' ∉ line := fun h => absurd (hplain _ h) (by decide)
  have hlast : '\n' ∉ last := not_mem_of_mem_splitOn '\n' (unifyBreaks t) last (by
    rw [← linesOf, hbefore]
    exact List.mem_append_right before (List.mem_singleton_self last))
  have hjoin : unifyBreaks (t ++ (line ++ ['\n'])) = unifyBreaks t ++ (line ++ ['\n']) := by
    rw [unifyBreaks_append, unifyBreaks_of_not_mem (t := line ++ ['\n'])]
    · simpa using hreturn
    · -- a carriage return before the line is a break of its own
      intro _ _ w hw
      obtain ⟨c, cs, rfl⟩ := List.exists_cons_of_ne_nil hne
      rw [List.cons_append] at hw
      exact hfeed ((List.cons.inj hw).1 ▸ List.mem_cons_self)
  have hmem : '\n' ∉ last ++ line := fun h => (List.mem_append.mp h).elim hlast hfeed
  rw [linesOf, hjoin, splitOn_append_of_concat hbefore, ← List.append_assoc, splitOn_append hmem]
  rfl

end Text

namespace Journal

variable {e : Event} {t : Text}

/-- The line of the text that has not ended; empty if all have. -/
def unended (t : Text) : Text := (Text.linesOf t).getLastD []

/-- The lines of the text that have ended. -/
def ended (t : Text) : List Text := (Text.linesOf t).dropLast

theorem ended_append_unended (t : Text) : Text.linesOf t = ended t ++ [unended t] := by
  obtain ⟨before, last, h⟩ : ∃ before last, Text.linesOf t = before ++ [last] :=
    (List.eq_nil_or_concat' _).resolve_left (Text.linesOf_ne_nil t)
  rw [ended, unended, h, List.dropLast_concat, List.getLastD_concat]

/-- An event goes on where the last line of the text has not ended. -/
theorem linesOf_append_event (t : Text) (h : e.Fits) :
    Text.linesOf (t ++ (e.line ++ ['\n'])) = ended t ++ [unended t ++ e.line, []] := by
  obtain ⟨u, hu⟩ := e.exists_line
  exact Text.linesOf_append_line (ended_append_unended t) (Event.plain_line h) (by simp [hu])

/-- **An event behind lines that have ended**, or behind blanks, is one record more. -/
theorem recordsIn_append_event (h : e.Fits) (hblank : (unended t).trim = []) (since : Option Text) :
    recordsIn since (Text.linesOf (t ++ (e.line ++ ['\n'])))
      = (recordsIn since (Text.linesOf t)).map (· ++ if e.isSince since then [e.record] else []) := by
  have hunended : recordsIn since [unended t] = .ok [] := by
    rw [recordsIn_singleton, hblank]
    rfl
  rw [linesOf_append_event t h, ended_append_unended t, List.append_cons, recordsIn_concat_nil, recordsIn_append,
    recordsIn_append, Event.recordsIn_line h hblank, hunended]
  cases recordsIn since (ended t) <;> simp [Except.bind, Except.map]

theorem unended_append_event (t : Text) (h : e.Fits) : unended (t ++ (e.line ++ ['\n'])) = [] := by
  rw [unended, linesOf_append_event t h, List.append_cons, List.getLastD_concat]

end Journal

end Provenance
