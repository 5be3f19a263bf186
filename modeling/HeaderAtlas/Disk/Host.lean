import HeaderAtlas.Disk.Lookup
import HeaderAtlas.Path.Basic
/-!
# Hosts

What the tool sees of the machine it runs on: a disk, the place of the working directory, the environment
variables, the user accounts, and how much can be written where. Paths come as texts, so a path may also fail
to be one: it may have no bytes, or hold the byte zero, which no path can.

Some of this can fail behind the tool's back, and the model says how. The working directory may have been
removed; then it has no path any more, and a relative path means nothing. A disk may be full; then a file is
open and already empty when it turns out that it takes no more.
-/

set_option autoImplicit false

namespace HeaderAtlas

/-- Why something could not be done with a path. The last two concern the path itself, and no disk is asked
about it. -/
inductive PathError where
  /-- The disk refuses what is asked of the path. -/
  | fault (f : Disk.Fault)
  /-- Something fails where no path is given any more: in a file that is open already, or in asking for the
  working directory. -/
  | bare (f : Disk.Fault)
  | zeroByte
  | encoding (e : EncodeError)
  deriving DecidableEq, Repr

namespace PathError

def message (path : Text) : PathError → Text
  | .fault f =>
    "[Errno " ++ Text.ofNat f.number ++ "] " ++ f.reason ++ ": " ++ path.quoted
  | .bare f => "[Errno " ++ Text.ofNat f.number ++ "] " ++ f.reason
  | .zeroByte => "embedded null byte"
  | .encoding e => e.message

end PathError

structure Accounts where
  /-- The home directory of the user who runs the tool, if that user has an account. -/
  own : Option Bytes := none
  /-- The home directories by the names of the users. -/
  homes : List (Bytes × Bytes) := []

/-- The machine as the tool sees it. It is handed on from step to step; what a step does to the disk is in the host it
gives back. -/
structure Host where
  disk : Disk
  /-- The place of the working directory. -/
  cwd : List Bytes
  /-- The environment variables. -/
  env : List (Bytes × Bytes)
  /-- The user accounts, where the machine keeps any. -/
  accounts : Option Accounts := none
  /-- Whether the working directory has been removed. -/
  stranded : Bool := false
  /-- How many bytes a file at a place can hold, where there is a bound. -/
  room : List Bytes → Option Nat := fun _ => none

namespace Host

/-- The bytes of a path. Every question about a path comes through here, so that all of them fail in the same way for
a text that is no path. -/
def pathBytes (path : Text) : Except PathError Bytes :=
  match path.encode with
  | .error e => .error (.encoding e)
  | .ok bytes => if bytes.contains 0 then .error .zeroByte else .ok bytes

/-- The path of a place. It begins at the root, and the root's own place has the path of a single slash. -/
def placeText (place : List Bytes) : Text := Path.slash :: Text.join [Path.slash] (place.map Bytes.toText)

def cwdText (host : Host) : Text := placeText host.cwd

def absolute (host : Host) (path : Text) : Text := Path.absolute host.cwdText path

/-- Whether a path is relative to a working directory that is gone. There is no absolute path to it then. -/
def isAdrift (host : Host) (path : Text) : Bool := host.stranded && !Path.isAbsolute path

/-- What is said about a working directory that is not there any more. No path is named, as there is none to name. -/
def noWorkingDirectory : PathError := .bare .noEntry

/-- The value of an environment variable. A name that cannot be encoded is refused; one that no variable can have is
just not found. -/
def environment (host : Host) (name : Text) : Except EncodeError (Option Text) :=
  match name.encode with
  | .error e => .error e
  | .ok key => .ok ((host.env.find? fun entry => entry.1 == key).map fun entry => entry.2.toText)

/-! ## Asking about paths -/

def entry (host : Host) (follow : Bool) (path : Text) : Except PathError (List Bytes × Entry) :=
  match pathBytes path with
  | .error e => .error e
  | .ok bytes =>
    match host.disk.entry host.cwd follow bytes with
    | .ok found => .ok found
    | .error f => .error (.fault f)

/-- The entry a path leads to, if all goes well. Why it does not go well is of no interest to the questions below. -/
def entry? (host : Host) (follow : Bool) (path : Text) : Option Entry :=
  match host.entry follow path with
  | .ok (_, e) => some e
  | .error _ => none

def isThere (host : Host) (path : Text) : Bool := (host.entry? true path).isSome

/-- Whether a path leads to a regular file, links followed. Every failure on the way counts as a no. -/
def isFile (host : Host) (path : Text) : Bool := ((host.entry? true path).map (·.isFile)).getD false

def isDirectory (host : Host) (path : Text) : Bool :=
  ((host.entry? true path).map (·.isDirectory)).getD false

/-- The link that a path names, if it names one: its target, or why that cannot be seen. -/
def linkTarget? (host : Host) (path : Text) : Option (Except Disk.Fault Text) :=
  match host.entry? false path with
  | some (.link target access) => some (if access.read then .ok target.toText else .error .denied)
  | _ => none

/-! ## Reading -/

/-- What comes out of an entry that is opened for reading. A look-up that follows links ends at none, so the last case
does not come up. -/
def readEntry : Entry → Except PathError Bytes
  | .file contents access => if access.read then .ok contents else .error (.fault .denied)
  | .pipe contents access => if access.read then .ok contents else .error (.fault .denied)
  | .device answer access => if access.read then .ok answer else .error (.fault .denied)
  | .directory _ access => .error (.fault (if access.read then .isDirectory else .denied))
  | .link _ _ => .error (.fault .tooManyLinks)

def read (host : Host) (path : Text) : Except PathError Bytes :=
  match host.entry true path with
  | .error e => .error e
  | .ok (_, e) => readEntry e

/-- The entries of a directory, in the order in which the disk has them. Callers sort them. -/
def list (host : Host) (path : Text) : Except PathError (List (Bytes × Entry)) :=
  match host.entry true path with
  | .error e => .error e
  | .ok (_, .directory entries access) =>
    if access.read then .ok entries else .error (.fault .denied)
  | .ok (_, _) => .error (.fault .notDirectory)

end Host

end HeaderAtlas
