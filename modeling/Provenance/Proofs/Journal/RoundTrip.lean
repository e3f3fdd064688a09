/-
Events that are read back.

Events that are appended to a journal that held nothing are read back in the order in which they
were appended, from any time on and as many of the last as are asked for. Each comes back as the
same object, whatever its texts are made of: breaks, quotes and characters of all kinds are written
so that they stay on one line, and nothing of a line is lost when it is trimmed and read.

The fields of an object come back in the order of their names. What cannot be written in the first
place, an integer of more digits than integers may have or a value that nests too deep, is left out
by `Event.Fits`.
-/
import Mathlib.Data.List.DropRight
import Provenance.Proofs.Journal.Lines
import Provenance.Proofs.Session.Reachable

set_option autoImplicit false

namespace Provenance.Journal

open Host Action

variable {d : Disk} {h : Host} {path : Path} {content : Bytes} {t : Text} {events : List Event}

/-! ## Reading what a journal holds -/

/-- A journal that events can be added to is read as what it holds. -/
theorem read_of_held? (hheld : held? d path = some content) (since : Option Text) {limit : Int}
    (hlimit : 1 ≤ limit) :
    read d path since limit = (recordsOf since content).map (·.rtake limit.toNat) := by
  rw [read, if_neg (by omega)]
  rcases held?_eq_some_iff.mp hheld with ⟨x, time, hpl⟩ | ⟨⟨dir, n, hpl⟩, rfl⟩
  · have hstat := Disk.stat_of_present hpl
    rw [Disk.hasEntry, Disk.holds_of_stat _ hstat, Disk.read, hstat]
    rfl
  · rw [Disk.hasEntry_of_absent hpl, recordsOf_nil, Except.map, List.rtake_nil]

theorem read_of_lt {limit : Int} (hlimit : limit < 1) (d : Disk) (path : Path) (since : Option Text) :
    read d path since limit = .ok [] := by
  rw [read, if_pos hlimit]

/-! ## Adding events -/

/-- An event can be added to a journal, and comes after what the journal held. -/
theorem append_held (hd : h.disk.Legal) (hp : path.Straight) (hheld : held? h.disk path = some content)
    (e : Event) : ∃ h', (append path e).runOn h = (.ok (), h') ∧ h'.disk.Legal
      ∧ held? h'.disk path = some (content ++ written e) := by
  obtain ⟨d, hd'⟩ := (Disk.append_ok_iff h.disk path (written e) h.clock.now).mpr (takesText_of_held? hheld)
  refine ⟨{ h with disk := d, clock := h.clock.next }, ?_, hd.append hp hd', held?_append hd hp hheld hd'⟩
  show (call path fun d now => d.append path (written e) now).runOn h = _
  rw [runOn_call_ok hd']

/-- So can any number of events. -/
theorem appends_held (hd : h.disk.Legal) (hp : path.Straight) (hheld : held? h.disk path = some content)
    (events : List Event) : ∃ h', (events.forM (append path)).runOn h = (.ok (), h') ∧ h'.disk.Legal
      ∧ held? h'.disk path = some (content ++ events.flatMap written) := by
  induction events generalizing h content with
  | nil => exact ⟨h, rfl, hd, by rw [List.flatMap_nil, List.append_nil, hheld]⟩
  | cons e events ih =>
    obtain ⟨h', hrun, hd', hheld'⟩ := append_held hd hp hheld e
    obtain ⟨h'', hruns, hd'', hheld''⟩ := ih hd' hheld'
    refine ⟨h'', ?_, hd'', by rw [hheld'', List.flatMap_cons, List.append_assoc]⟩
    show (append path e >>= fun _ => events.forM (append path)).runOn h = _
    rw [runOn_bind_ok hrun, hruns]

/-- Events behind lines that have ended are as many records more. -/
theorem recordsOf_append_events (hevents : ∀ e ∈ events, e.Fits) (hblank : (unended t).trim = [])
    (since : Option Text) : recordsOf since (Utf8.encode t ++ events.flatMap written)
      = (recordsOf since (Utf8.encode t)).map (· ++ (events.filter (·.isSince since)).map Event.record) := by
  induction events generalizing t with
  | nil =>
    rw [List.flatMap_nil, List.append_nil]
    cases recordsOf since (Utf8.encode t) <;> simp [Except.map]
  | cons e events ih =>
    obtain ⟨he, hrest⟩ := List.forall_mem_cons.mp hevents
    have hnew : (unended (t ++ (e.line ++ ['\n']))).trim = [] := by
      rw [unended_append_event t he]
      rfl
    rw [List.flatMap_cons, ← List.append_assoc, written, ← Utf8.encode_append, ih hrest hnew, recordsOf_encode,
      recordsIn_append_event he hblank, recordsOf_encode, List.filter_cons]
    cases recordsIn since (Text.linesOf t) with
    | error er => rfl
    | ok records => cases e.isSince since <;> simp [Except.map]

/-! ## What is read back -/

/-- **Events that were appended are read back**: the last ones of those from a time on, each as the
same object. -/
theorem read_appended (hd : h.disk.Legal) (hp : path.Straight) (hempty : held? h.disk path = some [])
    (hevents : ∀ e ∈ events, e.Fits) :
    ∃ h', (events.forM (append path)).runOn h = (.ok (), h')
      ∧ ∀ (since : Option Text) (limit : Int), ∃ records, read h'.disk path since limit = .ok records
        ∧ List.Forall₂ (fun e record => e.toJson.Same record)
          ((events.filter (·.isSince since)).rtake limit.toNat) records := by
  obtain ⟨h', hrun, -, hheld⟩ := appends_held hd hp hempty events
  have hrecords : ∀ since, recordsOf since ([] ++ events.flatMap written)
      = .ok ((events.filter (·.isSince since)).map Event.record) := fun since => by
    have hnothing : (unended []).trim = [] := rfl
    have happend := recordsOf_append_events hevents hnothing since
    rwa [show Utf8.encode [] = [] from rfl, recordsOf_nil] at happend
  refine ⟨h', hrun, fun since limit => ?_⟩
  refine ⟨((events.filter (·.isSince since)).rtake limit.toNat).map Event.record, ?_, ?_⟩
  · by_cases hlimit : 1 ≤ limit
    · rw [read_of_held? hheld since hlimit, hrecords, Except.map, List.rtake, List.rtake, List.length_map,
        List.map_drop]
    · have hnone : limit.toNat = 0 := by omega
      rw [read_of_lt (by omega), hnone, List.rtake_zero]
      rfl
  · exact List.forall₂_map_right_iff.mpr (List.forall₂_same.mpr fun e _ => Json.same_sortFields e.toJson)

/-- An event whose texts have breaks, quotes, backslashes and characters of every plane. -/
def oddEvent : Event where
  timestamp := "2026-01-02".toList
  cycleId := "a\"b\\c\n".toList
  operation := "\r\n\u2028\u0085\t".toList
  ok := true
  errorCode := some "é\u4e2d😀\u007f".toList
  metadata := [("line\nbreak".toList, .arr [.str "\"quoted\"".toList, .int (-5), .null]), ("".toList, .obj [])]

/-- A journal beside the sources of the small project. -/
def smallLog : Path := ⟨.root, ["p".toList, "audit.jsonl".toList]⟩

theorem fits_oddEvent : oddEvent.Fits := by
  have hitems : Json.ItemsFit 982 [.str "\"quoted\"".toList, .int (-5), .null] :=
    ⟨trivial, Json.fits_int.mpr (by decide), trivial, trivial⟩
  have hfields : Json.FieldsFit 983 oddEvent.metadata := ⟨hitems, ⟨List.nodup_nil, trivial⟩, trivial⟩
  exact Json.fits_obj.mpr ⟨983, by decide, by decide, Json.fieldsFit_iff.mp hfields⟩

/-- That event is read back from a journal that was not there before. -/
theorem read_appended_odd : (Session.idle (Session.smallTree [])).disk.Legal ∧ smallLog.Straight
    ∧ held? (Session.idle (Session.smallTree [])).disk smallLog = some []
    ∧ (∀ e ∈ [oddEvent], e.Fits)
    ∧ ∃ h', ([oddEvent].forM (append smallLog)).runOn (Session.idle (Session.smallTree [])) = (.ok (), h')
      ∧ ∃ record, read h'.disk smallLog (some "2026".toList) 50 = .ok [record]
        ∧ oddEvent.toJson.Same record := by
  have hlegal : (Session.idle (Session.smallTree [])).disk.Legal :=
    Session.legal_idle (by decide +kernel) (by decide +kernel)
  have hstraight : smallLog.Straight := ⟨rfl, by decide⟩
  have hempty : held? (Session.idle (Session.smallTree [])).disk smallLog = some [] := by decide +kernel
  have hfits : ∀ e ∈ [oddEvent], e.Fits := by
    rintro e he
    rw [List.mem_singleton.mp he]
    exact fits_oddEvent
  obtain ⟨h', hrun, hread⟩ := read_appended hlegal hstraight hempty hfits
  obtain ⟨records, hrecords, hsame⟩ := hread (some "2026".toList) 50
  have hlast : ([oddEvent].filter (·.isSince (some "2026".toList))).rtake (50 : Int).toNat = [oddEvent] := rfl
  rw [hlast] at hsame
  cases hsame with
  | cons hrecord hnil =>
    cases hnil
    exact ⟨hlegal, hstraight, hempty, hfits, h', hrun, _, hrecords, hrecord⟩

end Provenance.Journal
