import HeaderAtlas.Disk.Host
/-!
# Writing to a disk

Every operation gives the host as it is afterwards, and whether it went well. One that is refused leaves the
host as it was, except that directories made on the way stay. One that is not refused may still fail later:
a file that is open for writing takes no more bytes than there is room for, and by then it has lost what it
held before. That is why the outcome of writing is a host *and* an answer, and not one of the two.

At the end of the module stands what a caller needs who carries the changes of a disk out: which files are
new or hold something else.
-/

set_option autoImplicit false

namespace HeaderAtlas

namespace Host

def withDisk (host : Host) (disk : Disk) : Host := { host with disk := disk }

def dropSlashes (path : Bytes) : Bytes := (path.reverse.dropWhile (· == Disk.slashByte)).reverse

/-- Whether entries may be made and removed in the directory that a place lies in. Who comes to the place has
come through that directory, so all that is left to ask is whether it may be changed. -/
def mayChange (host : Host) (place : List Bytes) : Bool :=
  match host.disk.at? place.dropLast with
  | some (.directory _ access) => access.write
  | _ => false

/-- The place at which a file, a pipe or a device may be opened for writing, and what is there. A file that is
not there can be made if its directory is there and may be changed; a path or a link that ends with a slash
names no file. -/
def writable (host : Host) (path : Text) : Except PathError (List Bytes × Entry) :=
  match pathBytes path with
  | .error e => .error e
  | .ok bytes =>
    if Disk.endsWithSlash bytes then
      if (dropSlashes bytes).isEmpty then .error (.fault .isDirectory)
      else
        match host.disk.locate host.cwd false (dropSlashes bytes) with
        | .error f => .error (.fault f)
        | .ok _ => .error (.fault .isDirectory)
    else
      match host.disk.locate host.cwd true bytes with
      | .error f => .error (.fault f)
      | .ok (.free _ true) => .error (.fault .isDirectory)
      | .ok (.found _ _ true) => .error (.fault .isDirectory)
      | .ok (.free place false) =>
        if host.mayChange place then .ok (place, .file [] .full) else .error (.fault .denied)
      | .ok (.found _ (.directory _ _) false) => .error (.fault .isDirectory)
      | .ok (.found place entry false) =>
        if entry.access.write then .ok (place, entry) else .error (.fault .denied)

def fitting (host : Host) (place : List Bytes) (held more : Bytes) : Nat :=
  match host.room place with
  | none => more.length
  | some room => min more.length (room - held.length)

/-- Puts bytes into an open file behind what it holds, as many as there is room for. The error names no path: the file
is open, and only the disk knows where it is. -/
def pour (host : Host) (place : List Bytes) (entry : Entry) (held more : Bytes) :
    Host × Except PathError Unit :=
  let taken := host.fitting place held more
  (host.withDisk (host.disk.set place (entry.refill (held ++ more.take taken))),
    if taken < more.length then .error (.bare .noSpace) else .ok ())

/-- Gives a file new contents. Opening the file empties it, so that what it held before is gone even where
there is no room for what is to come. -/
def write (host : Host) (path : Text) (contents : Bytes) : Host × Except PathError Unit :=
  match host.writable path with
  | .error e => (host, .error e)
  | .ok (place, entry) => host.pour place entry [] contents

/-- Adds to the end of a file, which is made if it is not there. -/
def append (host : Host) (path : Text) (more : Bytes) : Host × Except PathError Unit :=
  match host.writable path with
  | .error e => (host, .error e)
  | .ok (place, entry) => host.pour place entry entry.contents more

/-- Makes a directory in one that is there. A link at the place counts as something that is there, whether it leads
anywhere or not. -/
def makeDirectory (host : Host) (path : Text) : Except PathError Host :=
  match pathBytes path with
  | .error e => .error e
  | .ok bytes =>
    match host.disk.locate host.cwd false bytes with
    | .error f => .error (.fault f)
    | .ok (.found _ _ _) => .error (.fault .alreadyThere)
    | .ok (.free place _) =>
      if host.mayChange place then .ok (host.withDisk (host.disk.set place (.directory [] .full)))
      else .error (.fault .denied)

/-- Makes the first of a list of directories, each of which lies in the next, and those above it that
are missing. A directory that is there already is no fault. The fault names the directory that could
not be made. -/
def makeChain (host : Host) : List Text → Host × Except (PathError × Text) Unit
  | [] => (host, .ok ())
  | path :: above =>
    let start : Host × Except (PathError × Text) Unit :=
      match above with
      | [] => (host, .ok ())
      | outer :: _ =>
        if host.isThere outer then (host, .ok ())
        else
          match makeChain host above with
          | (made, .error (.fault .alreadyThere, _)) => (made, .ok ())
          | other => other
    match start with
    | (made, .error e) => (made, .error e)
    | (made, .ok ()) =>
      match made.makeDirectory path with
      | .ok done => (done, .ok ())
      | .error e => if made.isDirectory path then (made, .ok ()) else (made, .error (e, path))

def chain (anchor : Text) (components : List Text) : List Text :=
  ((List.range components.length).map fun n =>
    anchor ++ Text.join [Path.slash] (components.take (n + 1))).reverse

def makeDirectories (host : Host) (path : Text) : Host × Except (PathError × Text) Unit :=
  match chain (Path.anchor path) (Path.components path) with
  | [] => (host, .ok ())
  | paths => host.makeChain paths

/-- Removes what a path names. Links are not followed, and directories are not removed. -/
def remove (host : Host) (path : Text) : Except PathError Host :=
  match host.entry false path with
  | .error e => .error e
  | .ok (_, .directory _ _) => .error (.fault .isDirectory)
  | .ok (place, _) =>
    if host.mayChange place then .ok (host.withDisk (host.disk.erase place)) else .error (.fault .denied)

def move (host : Host) (place goal : List Bytes) (entry : Entry) : Except PathError Host :=
  if host.mayChange place && host.mayChange goal then
    .ok (host.withDisk ((host.disk.erase place).set goal entry))
  else .error (.fault .denied)

/-- Moves what one path names to another, in place of what is there. Links are not followed. No directory
is replaced, and a directory replaces nothing. -/
def rename (host : Host) (source target : Text) : Except PathError Host :=
  match host.entry false source, pathBytes target with
  | .error e, _ => .error e
  | _, .error e => .error e
  | .ok (place, entry), .ok bytes =>
    match host.disk.locate host.cwd false bytes with
    | .error f => .error (.fault f)
    | .ok (.free goal _) => host.move place goal entry
    | .ok (.found goal old _) =>
      if old.isDirectory then .error (.fault .isDirectory)
      else if entry.isDirectory then .error (.fault .notDirectory)
      else if goal = place then .ok host
      else host.move place goal entry

end Host

/-! ## What has changed -/

namespace Entry

mutual

/-- The files at and below an entry that are new or hold something else than before, with their places
and contents. The entry is at `place`, and `before` is what was there. -/
def changes (before : Option Entry) (place : List Bytes) : Entry → List (List Bytes × Bytes)
  | .file contents _ =>
    match before with
    | some (.file old _) => if old = contents then [] else [(place, contents)]
    | _ => [(place, contents)]
  | .directory entries _ => changesAll before place entries
  | _ => []

def changesAll (before : Option Entry) (place : List Bytes) :
    List (Bytes × Entry) → List (List Bytes × Bytes)
  | [] => []
  | (name, e) :: rest =>
    changes (before.bind fun b => b.child? name) (place ++ [name]) e ++ changesAll before place rest

end

end Entry

/-- The files of a disk that are new or hold something else than on the disk `before`. Files that are gone are not
among them. -/
def Disk.changes (before after : Disk) : List (List Bytes × Bytes) :=
  Entry.changes (some before.root) [] after.root

end HeaderAtlas
