/-
Hosts.

A host is what an update runs on: a disk, a clock, and the faults that the
host's store of artifacts will show.

A clock is the sequence of its readings and the number of readings taken. What
is proved about an update holds for every sequence of readings.

Faults are rules. Each call on the store first goes through the rules in order.
A rule applies to a method, perhaps only for paths that end in a certain name,
and at most a given number of times, after letting a given number of calls pass.
-/
import Provenance.Disk.Calls
import Provenance.Failure

set_option autoImplicit false

namespace Provenance

/-! ## Clocks -/

/-- Readings in nanoseconds, and how many have been taken. -/
structure Clock where
  reading : Nat → Int
  taken : Nat

/-- The present reading. -/
def Clock.now (c : Clock) : Int := c.reading c.taken

/-- The clock after a reading has been taken. -/
def Clock.next (c : Clock) : Clock := { c with taken := c.taken + 1 }

/-! ## Faults -/

/-- The calls on a store that can be made to fail. -/
inductive StoreMethod where
  | createIfAbsent
  | touch
  | createDirectories
  | listFiles
  | delete
  | removeDirectory
  | removeEmptyDirectories
  deriving DecidableEq, Repr

/-- How a call is made to fail. -/
inductive Fault where
  /-- like a call of the operating system on the path -/
  | numbered (code : Int) (text : Text)
  /-- like a call of a store that knows only a text -/
  | bare (text : Text)
  /-- in a way that is no failed call -/
  | crash (text : Text)
  deriving DecidableEq, Repr

/-- The cause that a fault makes of a call on a path. -/
def Fault.cause (path : Path) : Fault → Cause
  | .numbered code text => .io (.numbered code text path)
  | .bare text => .io (.bare text)
  | .crash text => .crash text

/-- Whether a fault is a failed call. -/
def Fault.isIo : Fault → Bool
  | .crash _ => false
  | _ => true

/-- When a call fails, and how. -/
structure FaultRule where
  method : StoreMethod
  /-- the last name of the path, if only such paths are meant -/
  name : Option Text
  /-- how many calls fail; any number if it is not given -/
  count : Option Int
  /-- how many calls pass first -/
  skip : Int
  fault : Fault
  deriving DecidableEq, Repr

/-- Whether a rule is about a call. -/
def FaultRule.applies (r : FaultRule) (method : StoreMethod) (path : Path) : Bool :=
  r.method = method && r.name.all (· = path.name) && r.count.all (· ≠ 0)

/-- The rules after a call, and the fault that it meets. -/
def strike (method : StoreMethod) (path : Path) : List FaultRule → List FaultRule × Option Fault
  | [] => ([], none)
  | r :: rules =>
    if r.applies method path then
      if 0 < r.skip then
        let (rules, fault) := strike method path rules
        ({ r with skip := r.skip - 1 } :: rules, fault)
      else ({ r with count := r.count.map (· - 1) } :: rules, some r.fault)
    else
      let (rules, fault) := strike method path rules
      (r :: rules, fault)

/-! ## Hosts -/

/-- What an update runs on. -/
structure Host where
  disk : Disk
  clock : Clock
  faults : List FaultRule

namespace Host

/-- Takes a reading of the clock. -/
def readClock : Action Host Int := do
  let h ← get
  set { h with clock := h.clock.next }
  return h.clock.now

/-- Asks the disk a question about a path. -/
def ask {α : Type} (path : Path) (question : Disk → Except Errno α) : Action Host α := do
  let h ← get
  Action.ofExcept (fun e => .io (.ofErrno e path)) (question h.disk)

/-- Makes a call that changes the disk, at the time the clock shows; a call that fails takes no
reading. -/
def call (path : Path) (change : Disk → Int → Except Errno Disk) : Action Host Unit := do
  let h ← get
  match change h.disk h.clock.now with
  | .ok disk => set { h with disk := disk, clock := h.clock.next }
  | .error e => Action.fail (.io (.ofErrno e path))

/-- Lets a call meet the fault that the rules hold for it. -/
def meetFault (method : StoreMethod) (path : Path) : Action Host Unit := do
  let h ← get
  let (rules, fault) := strike method path h.faults
  set { h with faults := rules }
  match fault with
  | some f => Action.fail (f.cause path)
  | none => pure ()

/-- Creates a directory; one that is there already will do. -/
def makeDirectory (path : Path) : Action Host Unit := do
  let h ← get
  match h.disk.makeDirectory path h.clock.now with
  | .ok disk => set { h with disk := disk, clock := h.clock.next }
  | .error e =>
    if ← ask path (·.hasDirectory path) then pure ()
    else Action.fail (.io (.ofErrno e path))

/-- Creates a directory and those above it that are missing, of which there are at most one more
than the number. -/
def makeDirectoriesWithin : Nat → Path → Action Host Unit
  | depth, path => do
    let h ← get
    match h.disk.makeDirectory path h.clock.now with
    | .ok disk => set { h with disk := disk, clock := h.clock.next }
    | .error .notFound =>
      if path.parent = path then Action.fail (.io (.ofErrno .notFound path))
      else match depth with
        | 0 => Action.fail .deepMaking
        | depth + 1 => do
          makeDirectoriesWithin depth path.parent
          makeDirectory path
    | .error e =>
      if ← ask path (·.hasDirectory path) then pure ()
      else Action.fail (.io (.ofErrno e path))

/-- Creates a directory and those above it that are missing. -/
def makeDirectories (path : Path) : Action Host Unit := makeDirectoriesWithin maxNesting path

end Host

end Provenance
