/-
A damaged journal.

What a journal holds need not have been written as events. A line that is no document is passed
over, and so is a blank one. But a document need not be an object, and a line can be refused for
something else than its form; then a reader is given what is no object, or gets nothing at all. And
the last line need not have ended: an event that comes behind it is read as a part of it, and with
it the event is lost.

Both are stated for whatever text a journal holds: reading does no harm exactly if every line is
harmless, and every event that is added comes back exactly if no line is fatal and nothing but
blanks stands where the event begins.
-/
import Provenance.Proofs.Journal.RoundTrip
import Provenance.Proofs.Json.Torn

set_option autoImplicit false

namespace Provenance

/-! ## Documents -/

namespace Json

/-- Whether a value is an object. -/
def IsObject (j : Json) : Prop := ∃ fields, j = .obj fields

theorem isBlank_of_isGap {c : Char} (h : isGap c = true) : isBlank c = true := by
  simp only [isGap, Bool.or_eq_true, decide_eq_true_eq] at h
  rcases h with ((rfl | rfl) | rfl) | rfl <;> decide

/-- One bracket more than values may nest is one too many. -/
theorem readValue_brackets (depth fuel : Nat) (t : Text) :
    readValue (2 * depth + fuel + 1) depth (List.replicate (depth + 1) '[' ++ t)
      = .error (.tooDeep .array) := by
  induction depth generalizing fuel with
  | zero => rfl
  | succ depth ih =>
    have hfuel : 2 * (depth + 1) + fuel + 1 = 2 * depth + fuel + 1 + 1 + 1 := by omega
    have hbegins : BeginsValue (List.replicate (depth + 1) '[' ++ t) := ⟨'[', _, rfl, rfl, by decide⟩
    rw [hfuel, List.replicate_succ, List.cons_append, readValue_array hbegins, readItems, ih fuel]
    rfl

end Json

/-! ## Events -/

namespace Event

variable {e e' : Event} {record : Json}

/-- An object is the record of one cycle at most. -/
theorem cycleId_eq_of_same (h : e.toJson.Same record) (h' : e'.toJson.Same record) :
    e.cycleId = e'.cycleId := by
  obtain ⟨ordered, rfl, hperm, hfields⟩ := h.exists_field
  obtain ⟨ordered', hordered, -, hfields'⟩ := h'.exists_field
  obtain rfl := Json.obj.inj hordered
  have hnodup : (ordered.map Prod.fst).Nodup := hperm.nodup_iff.mpr nodup_names
  obtain ⟨v, hv, hsame⟩ := hfields (Json.field "cycle_id" (.str e.cycleId)) (by simp)
  obtain ⟨v', hv', hsame'⟩ := hfields' (Json.field "cycle_id" (.str e'.cycleId)) (by simp)
  obtain rfl := hsame.eq_of_str
  obtain rfl := hsame'.eq_of_str
  have heq := List.inj_on_of_nodup_map hnodup hv hv' rfl
  exact Json.str.inj (Prod.mk.inj heq).2

/-- Behind a line that has been torn, the line of an event is lost. -/
theorem read_torn_ne (h : e.Fits) {w : Text} (hw : w.trim ≠ []) :
    Json.read (w ++ e.line).trim ≠ .ok record := by
  obtain ⟨u, hu⟩ := e.exists_line
  have hclosed : Json.Closed ('c' :: (u ++ ['\x7d'])) :=
    .of_render (Json.fits_sortFields (fits_toJson h)) hu (by decide)
  have hne : w.trimLeft ≠ [] := fun hnil => hw (by rw [Text.trim, hnil]; rfl)
  have hgap : ∀ c ∈ w.trimLeft.head?, Json.isGap c = false := by
    intro c hc
    have hhead := List.head?_dropWhile_not isBlank w
    rw [← Text.trimLeft, hc] at hhead
    exact Bool.eq_false_iff.mpr fun hgap => Bool.eq_false_iff.mp hhead (Json.isBlank_of_isGap hgap)
  rw [trim_append_line, hu]
  exact Json.not_read_append hclosed hne hgap

end Event

/-! ## Lines -/

namespace Journal

open Host Action

variable {e : Event} {since : Option Text} {line t : Text} {lines lines' : List Text} {records : List Json}
  {h : Host} {path : Path}

/-- The reader passes over the line, or it holds an object. -/
def Harmless (line : Text) : Prop :=
  Json.read line.trim = .error .malformed ∨ ∃ fields, Json.read line.trim = .ok (.obj fields)

/-- No reader gets past the line: it is refused for something else than its form. -/
def Fatal (line : Text) : Prop :=
  (∃ digits, Json.read line.trim = .error (.longInteger digits))
    ∨ ∃ value, Json.read line.trim = .error (.tooDeep value)

theorem Harmless.not_fatal (h : Harmless line) : ¬Fatal line := by
  rcases h with h | ⟨fields, h⟩ <;> simp [Fatal, h]

/-- An integer of too many digits is fatal. -/
theorem fatal_of_digits (h : Json.IsWhole line.trim) (hlong : Json.maxIntegerDigits < line.trim.length) :
    Fatal line := by
  have hend : Json.EndsNumber [] := by
    rintro c ⟨⟩
  have hbegins := h.beginsValue []
  have hvalue := Json.readValue_number h false (2 * line.trim.length + 1) maxNesting []
  have hwhole := Json.takeWhole_append h hend.endsDigits
  obtain ⟨d, ds, hdigits, -⟩ := h.exists_cons
  have hne : line.trim ≠ [] := by
    rw [hdigits]
    exact List.cons_ne_nil d ds
  rw [if_neg Bool.false_ne_true, List.nil_append, Json.readNumber_int hwhole hne rfl rfl, if_pos hlong] at hvalue
  rw [List.append_nil] at hbegins hvalue
  exact .inl ⟨line.trim.length, by rw [Json.read, Json.readWithin, hbegins.skipGaps_eq, hvalue]⟩

/-- Arrays that nest too deep are fatal. -/
theorem fatal_of_brackets {t : Text} (h : line.trim = List.replicate (maxNesting + 1) '[' ++ t) : Fatal line := by
  have hfuel : 2 * line.trim.length + 2 = 2 * maxNesting + (2 * t.length + 3) + 1 := by
    rw [h, List.length_append, List.length_replicate]
    omega
  have hskip : Json.skipGaps line.trim = line.trim := by
    rw [h, List.replicate_succ, List.cons_append]
    exact Json.skipGaps_cons rfl _
  refine .inr ⟨.array, ?_⟩
  rw [Json.read, Json.readWithin, hskip, hfuel, h, Json.readValue_brackets]

theorem recordsIn_append_ok_iff : recordsIn since (lines ++ lines') = .ok records ↔
    ∃ first rest, recordsIn since lines = .ok first ∧ recordsIn since lines' = .ok rest
      ∧ records = first ++ rest := by
  rw [recordsIn_append]
  cases recordsIn since lines <;> cases recordsIn since lines' <;> simp [Except.bind, Except.map, eq_comm]

theorem recordsIn_cons_ok_iff : recordsIn since (line :: lines) = .ok records ↔
    ∃ first rest, recordsIn since [line] = .ok first ∧ recordsIn since lines = .ok rest
      ∧ records = first ++ rest := by
  rw [← List.singleton_append, recordsIn_append_ok_iff]

/-- A line from which something is read is passed over, or its document is asked whether it counts. -/
theorem recordsIn_singleton_ok_iff : recordsIn since [line] = .ok records ↔
    Json.read line.trim = .error .malformed ∧ records = []
    ∨ ∃ record counts, Json.read line.trim = .ok record ∧ isSince since record = .ok counts
      ∧ records = if counts then [record] else [] := by
  rw [recordsIn_singleton]
  rcases Json.read line.trim with (_ | _ | _) | record
  · simp [eq_comm]
  · simp
  · simp
  · rcases hcounts : isSince since record with er | counts
    · simp [hcounts, Except.map]
    · cases counts <;> simp [hcounts, Except.map, eq_comm]

/-- A harmless line gives an object or nothing, whatever is asked for. -/
theorem Harmless.recordsIn (h : Harmless line) (since : Option Text) :
    ∃ records, recordsIn since [line] = .ok records ∧ ∀ r ∈ records, r.IsObject := by
  rcases h with hread | ⟨fields, hread⟩
  · exact ⟨[], recordsIn_singleton_ok_iff.mpr (.inl ⟨hread, rfl⟩), fun r hr => absurd hr List.not_mem_nil⟩
  · -- an object can be asked for its time
    obtain ⟨counts, hcounts⟩ : ∃ counts, isSince since (.obj fields) = .ok counts := by
      cases since <;> exact ⟨_, rfl⟩
    refine ⟨_, recordsIn_singleton_ok_iff.mpr (.inr ⟨_, counts, hread, hcounts, rfl⟩), fun r hr => ?_⟩
    cases counts with
    | true => exact ⟨fields, List.mem_singleton.mp hr⟩
    | false => exact absurd hr List.not_mem_nil

theorem harmless_of_recordsIn (h : recordsIn none [line] = .ok records) (hall : ∀ r ∈ records, r.IsObject) :
    Harmless line := by
  rcases recordsIn_singleton_ok_iff.mp h with ⟨hread, -⟩ | ⟨record, counts, hread, hcounts, rfl⟩
  · exact .inl hread
  · obtain rfl := Except.ok.inj hcounts
    obtain ⟨fields, rfl⟩ := hall record (List.mem_singleton_self record)
    exact .inr ⟨fields, hread⟩

theorem recordsIn_singleton_isOk : (∃ records, recordsIn none [line] = .ok records) ↔ ¬Fatal line := by
  rw [recordsIn_singleton, Fatal]
  rcases Json.read line.trim with (_ | _ | _) | record <;> simp [isSince, Except.map]

/-- Harmless lines give objects, whatever is asked for. -/
theorem recordsIn_of_harmless (h : ∀ line ∈ lines, Harmless line) (since : Option Text) :
    ∃ records, recordsIn since lines = .ok records ∧ ∀ r ∈ records, r.IsObject := by
  induction lines with
  | nil => exact ⟨[], rfl, fun r hr => absurd hr List.not_mem_nil⟩
  | cons line lines ih =>
    obtain ⟨hline, hlines⟩ := List.forall_mem_cons.mp h
    obtain ⟨first, hfirst, hobjects⟩ := hline.recordsIn since
    obtain ⟨rest, hrest, hobjects'⟩ := ih hlines
    exact ⟨first ++ rest, recordsIn_cons_ok_iff.mpr ⟨first, rest, hfirst, hrest, rfl⟩,
      List.forall_mem_append.mpr ⟨hobjects, hobjects'⟩⟩

/-- Lines that give objects alone are harmless. -/
theorem forall_harmless_of_recordsIn (h : recordsIn none lines = .ok records)
    (hall : ∀ r ∈ records, r.IsObject) : ∀ line ∈ lines, Harmless line := by
  induction lines generalizing records with
  | nil => exact fun line hline => absurd hline List.not_mem_nil
  | cons line lines ih =>
    obtain ⟨first, rest, hfirst, hrest, rfl⟩ := recordsIn_cons_ok_iff.mp h
    obtain ⟨hobjects, hobjects'⟩ := List.forall_mem_append.mp hall
    exact List.forall_mem_cons.mpr ⟨harmless_of_recordsIn hfirst hobjects, ih hrest hobjects'⟩

/-- Without a time to ask for, nothing but fatal lines is in the way. -/
theorem recordsIn_isOk_iff (lines : List Text) :
    (∃ records, recordsIn none lines = .ok records) ↔ ∀ line ∈ lines, ¬Fatal line := by
  induction lines with
  | nil => simp [recordsIn]
  | cons line lines ih =>
    rw [List.forall_mem_cons, ← ih, ← recordsIn_singleton_isOk]
    constructor
    · rintro ⟨records, h⟩
      obtain ⟨first, rest, hfirst, hrest, -⟩ := recordsIn_cons_ok_iff.mp h
      exact ⟨⟨first, hfirst⟩, rest, hrest⟩
    · rintro ⟨⟨first, hfirst⟩, rest, hrest⟩
      exact ⟨_, recordsIn_cons_ok_iff.mpr ⟨first, rest, hfirst, hrest, rfl⟩⟩

/-- Behind a line that has been torn, an event gives nothing. -/
theorem eq_nil_of_torn (he : e.Fits) (htorn : line.trim ≠ [])
    (h : recordsIn since [line ++ e.line] = .ok records) : records = [] := by
  rcases recordsIn_singleton_ok_iff.mp h with ⟨-, hnil⟩ | ⟨record, counts, hread, -⟩
  · exact hnil
  · exact absurd hread (Event.read_torn_ne he htorn)

/-! ## Journals -/

/-- Whatever is asked for, the journal is read, and what is read are objects. -/
def ReadsObjects (d : Disk) (path : Path) : Prop := ∀ (since : Option Text) (limit : Int),
  ∃ records, read d path since limit = .ok records ∧ ∀ r ∈ records, r.IsObject

/-- Any event can be added to the journal, and is what comes back as the last one. -/
def ReturnsEvents (h : Host) (path : Path) : Prop := ∀ e : Event, e.Fits →
  ∃ h', (append path e).runOn h = (.ok (), h')
    ∧ ∃ record, read h'.disk path none 1 = .ok [record] ∧ e.toJson.Same record

/-- Reading does no harm exactly if no line does. -/
theorem readsObjects_iff {d : Disk} (hheld : held? d path = some (Utf8.encode t)) :
    ReadsObjects d path ↔ ∀ line ∈ Text.linesOf t, Harmless line := by
  constructor
  · intro h
    obtain ⟨one, hone, -⟩ := h none 1
    rw [read_of_held? hheld none le_rfl, recordsOf_encode] at hone
    rcases hall : recordsIn none (Text.linesOf t) with er | all
    · rw [hall] at hone
      exact nomatch hone
    -- asked for as many as there are, the reader is given all of them
    obtain ⟨records, hrecords, hobjects⟩ := h none (all.length + 1)
    rw [read_of_held? hheld none (by omega), recordsOf_encode, hall] at hrecords
    have hrtake : all.rtake (all.length + 1 : Int).toNat = all := by
      rw [List.rtake, show all.length - (all.length + 1 : Int).toNat = 0 by omega, List.drop_zero]
    obtain rfl : all = records := hrtake.symm.trans (Except.ok.inj hrecords)
    exact forall_harmless_of_recordsIn hall hobjects
  · intro h since limit
    obtain ⟨records, hrecords, hobjects⟩ := recordsIn_of_harmless h since
    by_cases hlimit : 1 ≤ limit
    · rw [read_of_held? hheld since hlimit, recordsOf_encode, hrecords]
      exact ⟨_, rfl, fun r hr => hobjects r (List.mem_of_mem_drop hr)⟩
    · rw [read_of_lt (by omega)]
      exact ⟨[], rfl, fun r hr => absurd hr List.not_mem_nil⟩

/-- What the reader is given who asks for the last record of a journal to which an event was added. -/
theorem read_append (hd : h.disk.Legal) (hp : path.Straight) (hheld : held? h.disk path = some (Utf8.encode t))
    (he : e.Fits) : ∃ h', (append path e).runOn h = (.ok (), h') ∧ read h'.disk path none 1
      = (recordsIn none (ended t ++ [unended t ++ e.line])).map (·.rtake 1) := by
  obtain ⟨h', hrun, -, hheld'⟩ := append_held hd hp hheld e
  refine ⟨h', hrun, ?_⟩
  rw [written, ← Utf8.encode_append] at hheld'
  rw [read_of_held? hheld' none le_rfl, recordsOf_encode, linesOf_append_event t he, List.append_cons,
    recordsIn_concat_nil]
  rfl

/-- An event of which nothing but the cycle is told. -/
def cycleEvent (cycleId : Text) : Event := ⟨[], cycleId, [], true, none, []⟩

theorem fits_cycleEvent (cycleId : Text) : (cycleEvent cycleId).Fits :=
  Json.fits_obj.mpr ⟨maxNesting - 2, by decide, List.nodup_nil, fun f hf => absurd hf List.not_mem_nil⟩

/-- An event that comes back is the last record of the lines before it and of the line that it is on. -/
theorem ReturnsEvents.exists_last (hreturns : ReturnsEvents h path) (hd : h.disk.Legal) (hp : path.Straight)
    (hheld : held? h.disk path = some (Utf8.encode t)) (he : e.Fits) :
    ∃ first rest record, recordsIn none (ended t) = .ok first
      ∧ recordsIn none [unended t ++ e.line] = .ok rest
      ∧ (first ++ rest).rtake 1 = [record] ∧ e.toJson.Same record := by
  obtain ⟨h', hrun, record, hread, hsame⟩ := hreturns e he
  obtain ⟨h'', hrun', hread'⟩ := read_append hd hp hheld he
  obtain rfl : h' = h'' := (Prod.mk.inj (hrun.symm.trans hrun')).2
  rw [hread] at hread'
  rcases hall : recordsIn none (ended t ++ [unended t ++ e.line]) with er | all
  · rw [hall] at hread'
    exact nomatch hread'
  · rw [hall] at hread'
    obtain ⟨first, rest, hfirst, hrest, rfl⟩ := recordsIn_append_ok_iff.mp hall
    exact ⟨first, rest, record, hfirst, hrest, (Except.ok.inj hread').symm, hsame⟩

/-- Events come back exactly if no line that has ended is fatal and the last has nothing but blanks. -/
theorem returnsEvents_iff (hd : h.disk.Legal) (hp : path.Straight)
    (hheld : held? h.disk path = some (Utf8.encode t)) :
    ReturnsEvents h path ↔ (∀ line ∈ ended t, ¬Fatal line) ∧ (unended t).trim = [] := by
  constructor
  · intro hreturns
    obtain ⟨first, rest, record, hfirst, hrest, hlast, hsame⟩ :=
      hreturns.exists_last hd hp hheld (fits_cycleEvent [])
    refine ⟨(recordsIn_isOk_iff (ended t)).mp ⟨first, hfirst⟩, ?_⟩
    by_contra htorn
    -- nothing is read of the last line, whichever event is on it, so that another event would be the same
    obtain ⟨first', rest', record', hfirst', hrest', hlast', hsame'⟩ :=
      hreturns.exists_last hd hp hheld (fits_cycleEvent ['x'])
    obtain rfl : first = first' := Except.ok.inj (hfirst.symm.trans hfirst')
    rw [eq_nil_of_torn (fits_cycleEvent []) htorn hrest] at hlast
    rw [eq_nil_of_torn (fits_cycleEvent ['x']) htorn hrest'] at hlast'
    obtain rfl : record = record' := (List.cons.inj (hlast.symm.trans hlast')).1
    exact absurd (Event.cycleId_eq_of_same hsame hsame') (List.cons_ne_nil _ _).symm
  · rintro ⟨hlines, hblank⟩ e he
    obtain ⟨h', hrun, hread⟩ := read_append hd hp hheld he
    obtain ⟨records, hrecords⟩ := (recordsIn_isOk_iff (ended t)).mpr hlines
    have hall : recordsIn none (ended t ++ [unended t ++ e.line]) = .ok (records ++ [e.record]) :=
      recordsIn_append_ok_iff.mpr ⟨records, [e.record], hrecords, Event.recordsIn_line he hblank none, rfl⟩
    rw [hall] at hread
    refine ⟨h', hrun, e.record, ?_, Json.same_sortFields e.toJson⟩
    rw [hread, Except.map, List.rtake_concat_succ, List.rtake_zero]
    rfl

/-- **What damage does to a journal**, whatever text it holds. All that is read is objects exactly if
every line is passed over or an object; and an event that is added comes back exactly if no line is
fatal and none has been torn. -/
theorem damage_iff (hd : h.disk.Legal) (hp : path.Straight)
    (hheld : held? h.disk path = some (Utf8.encode t)) :
    (ReadsObjects h.disk path ↔ ∀ line ∈ Text.linesOf t, Harmless line)
      ∧ (ReturnsEvents h path ↔ (∀ line ∈ ended t, ¬Fatal line) ∧ (unended t).trim = []) :=
  ⟨readsObjects_iff hheld, returnsEvents_iff hd hp hheld⟩

/-- A host with a journal that holds a text. -/
def damaged (t : Text) : Host := Session.idle (Session.smallTree [(smallLog.names, .file (Utf8.encode t) 0)])

/-- Lines of all harmless kinds, one of them torn. -/
def scraps : Text := "not json\n\n\x7b\"a\n\x7b\"b\": null\x7d\n".toList

/-- They do no harm where all of them have ended. -/
theorem damage_of_scraps : (damaged scraps).disk.Legal ∧ smallLog.Straight
    ∧ held? (damaged scraps).disk smallLog = some (Utf8.encode scraps)
    ∧ ReadsObjects (damaged scraps).disk smallLog ∧ ReturnsEvents (damaged scraps) smallLog := by
  have hlegal : (damaged scraps).disk.Legal := Session.legal_idle (by decide +kernel) (by decide +kernel)
  have hstraight : smallLog.Straight := ⟨rfl, by decide⟩
  have hheld : held? (damaged scraps).disk smallLog = some (Utf8.encode scraps) := by decide +kernel
  have hobject : Harmless "\x7b\"b\": null\x7d".toList := by
    have hfits : (Json.obj [("b".toList, .null)]).Fits maxNesting :=
      Json.fits_obj.mpr ⟨maxNesting - 1, rfl, List.nodup_singleton _, fun f hf => by
        rw [List.mem_singleton.mp hf]
        trivial⟩
    have hline : Text.trim "\x7b\"b\": null\x7d".toList = (Json.obj [("b".toList, .null)]).renderSorted := rfl
    exact .inr ⟨_, by rw [hline, Json.read_renderSorted hfits]; rfl⟩
  have hlines : ∀ line ∈ Text.linesOf scraps, Harmless line := by
    have heq : Text.linesOf scraps
      = ["not json".toList, [], "\x7b\"a".toList, "\x7b\"b\": null\x7d".toList, []] := rfl
    rw [heq]
    simp only [List.forall_mem_cons]
    exact ⟨.inl rfl, .inl rfl, .inl rfl, hobject, .inl rfl, fun _ h => absurd h List.not_mem_nil⟩
  have hfatal : ∀ line ∈ ended scraps, ¬Fatal line := fun line hline =>
    (hlines line (List.mem_of_mem_dropLast hline)).not_fatal
  obtain ⟨hreads, hreturns⟩ := damage_iff hlegal hstraight hheld
  exact ⟨hlegal, hstraight, hheld, hreads.mpr hlines, hreturns.mpr ⟨hfatal, rfl⟩⟩

/-- An array is a document, but no object: who asks for the records is given it, and who asks for those
from a time on gets nothing. And a torn object takes the event that is added with it. -/
theorem not_tolerated : read (damaged "[1]\n".toList).disk smallLog none 50 = .ok [.arr [.int 1]]
    ∧ read (damaged "[1]\n".toList).disk smallLog (some "2026".toList) 50 = .error .noFields
    ∧ ¬ReadsObjects (damaged "[1]\n".toList).disk smallLog
    ∧ ¬ReturnsEvents (damaged "\x7b\"a\": 1".toList) smallLog := by
  have hheld : held? (damaged "[1]\n".toList).disk smallLog = some (Utf8.encode "[1]\n".toList) := by decide +kernel
  have harray : read (damaged "[1]\n".toList).disk smallLog none 50 = .ok [.arr [.int 1]] := by
    rw [read_of_held? hheld none (by decide), recordsOf_encode]
    rfl
  have hasked : read (damaged "[1]\n".toList).disk smallLog (some "2026".toList) 50 = .error .noFields := by
    rw [read_of_held? hheld _ (by decide), recordsOf_encode]
    rfl
  refine ⟨harray, hasked, fun h => ?_, fun h => ?_⟩
  · obtain ⟨records, hrecords, -⟩ := h (some "2026".toList) 50
    rw [hasked] at hrecords
    exact nomatch hrecords
  · have hlegal : (damaged "\x7b\"a\": 1".toList).disk.Legal :=
      Session.legal_idle (by decide +kernel) (by decide +kernel)
    have htorn : held? (damaged "\x7b\"a\": 1".toList).disk smallLog = some (Utf8.encode "\x7b\"a\": 1".toList) := by
      decide +kernel
    have hblank := ((returnsEvents_iff hlegal ⟨rfl, by decide⟩ htorn).mp h).2
    exact absurd hblank (by decide)

end Journal

end Provenance
