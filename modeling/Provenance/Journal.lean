/-
The journal of update cycles.

Each update cycle, whether it succeeds or fails, is one line at the end of the
journal: a JSON object in ASCII. The journal can be read back, the latest events
only and from a given time on. A line that is no JSON document is passed over,
so that a damaged line does not hide the others; a line that is one but not an
object has no time and cannot be asked for it.
-/
import Provenance.Host
import Provenance.Json.Printer
import Provenance.Text.Blocks

set_option autoImplicit false

namespace Provenance

/-- What is written down of an update cycle. -/
structure Event where
  timestamp : Text
  cycleId : Text
  operation : Text
  ok : Bool
  errorCode : Option Text
  metadata : Fields

namespace Event

/-- The event as a JSON object. -/
def toJson (e : Event) : Json :=
  .obj
    [Json.field "timestamp" (.str e.timestamp),
     Json.field "cycle_id" (.str e.cycleId),
     Json.field "operation" (.str e.operation),
     Json.field "ok" (.bool e.ok),
     Json.field "error_code" (.ofText? e.errorCode),
     Json.field "metadata" (.obj e.metadata)]

/-- The line of an event, without its break. -/
def line (e : Event) : Text := e.toJson.renderSorted

end Event

namespace Journal

/-! ## Writing -/

/-- Makes the directory of a journal. -/
def create (path : Path) : Action Host Unit := Host.makeDirectories path.parent

/-- Appends text to a journal. -/
def appendText (path : Path) (text : Text) : Action Host Unit :=
  Host.call path fun d now => d.append path (Utf8.encode text) now

/-- Appends an event to a journal. -/
def append (path : Path) (e : Event) : Action Host Unit := appendText path (e.line ++ ['\n'])

/-! ## Reading -/

/-- The time of a record, if it is an object with a text for a time. Only an object can be asked. -/
def timeOf : Json → Except Cause (Option Text)
  | .obj fields => .ok ((Fields.get? "timestamp".toList fields).bind Json.text?)
  | _ => .error .noFields

/-- Whether a record counts for a reader who asks from a time on. -/
def isSince (since : Option Text) (record : Json) : Except Cause Bool :=
  match since with
  | none => .ok true
  | some start => (timeOf record).map fun time => time.any fun t => (compare start t).isLE

/-- The records in some lines, from a time on. -/
def recordsIn (since : Option Text) : List Text → Except Cause (List Json)
  | [] => .ok []
  | line :: lines =>
    match line.trim with
    | [] => recordsIn since lines
    | body =>
      match Json.read body with
      | .error .malformed => recordsIn since lines
      | .error e => .error (.json e)
      | .ok record =>
        match isSince since record with
        | .error e => .error e
        | .ok true => (recordsIn since lines).map (record :: ·)
        | .ok false => recordsIn since lines

/-- The records in the content of a journal, from a time on. A flaw in the content is an error, but
a record before it that cannot be asked for its time is one first. -/
def recordsOf (since : Option Text) (content : Bytes) : Except Cause (List Json) :=
  let taken := Blocks.lines content
  match recordsIn since taken.lines, taken.flaw with
  | .error e, _ => .error e
  | .ok _, some flaw => .error (.encoding flaw)
  | .ok records, none => .ok records

/-- The last records of a journal, at most `limit` of them, from a time on; none if there is no
journal. -/
def read (d : Disk) (path : Path) (since : Option Text) (limit : Int) : Except Cause (List Json) :=
  if limit < 1 then .ok []
  else
    match d.hasEntry path with
    | .error e => .error (.io (.ofErrno e path))
    | .ok false => .ok []
    | .ok true =>
      match d.read path with
      | .error e => .error (.io (.ofErrno e path))
      | .ok content =>
        (recordsOf since content).map fun records =>
          records.drop (records.length - limit.toNat)

end Journal

end Provenance
