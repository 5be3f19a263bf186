import HeaderAtlas.Disk.Write
/-!
# Log files that roll over

A log file has a size at which it is put aside. It is then renamed to its first backup, the first backup to the second
and so on, up to the number of backups that are kept. Sizes are in bytes, but the line to come counts in characters,
so a file may outgrow its size by a line that is long in bytes. A line for which there is no room is lost, but for the
part that went in.

Any of the renamings may fail, and those before it have then happened. No attempt is made to undo them: the file is
left where it is, the line is lost, and the next one tries again.
-/

set_option autoImplicit false

namespace HeaderAtlas

namespace Journal

/-- A log file. With a size of zero or less it never rolls over. -/
structure RollingFile where
  path : Text
  maxBytes : Int
  backups : Int
  deriving DecidableEq, Repr

namespace RollingFile

def backupPath (f : RollingFile) (n : Nat) : Text := f.path ++ "." ++ Text.ofNat n

/-- Opens a log file, which makes it if it is not there. Nothing is written, so a file that is there stays as
it is. -/
def openAt (host : Host) (path : Text) : Host × Except PathError Unit := host.append path []

/-- The size of the file, which may be had of a file that may not be read. -/
def size (host : Host) (f : RollingFile) : Nat :=
  ((host.entry? true f.path).map (·.contents.length)).getD 0

/-- Whether the file is put aside before a line is written. Only regular files are, since a device has no size to
outgrow. -/
def isFull (host : Host) (f : RollingFile) (line : Text) : Bool :=
  !(host.isThere f.path && !host.isFile f.path) && 0 < f.maxBytes &&
    f.maxBytes ≤ (f.size host : Int) + line.length

/-- Makes room for a backup: a renaming does not rely on replacing what is in its way. -/
def clear (host : Host) (path : Text) : Except PathError Host :=
  if host.isThere path then host.remove path else .ok host

/-- Moves a backup on by one. The second part says whether that went well; a backup that is not there needs no
moving. -/
def shift (host : Host) (f : RollingFile) (n : Nat) : Host × Bool :=
  if host.isThere (f.backupPath n) then
    match clear host (f.backupPath (n + 1)) with
    | .error _ => (host, false)
    | .ok cleared =>
      match cleared.rename (f.backupPath n) (f.backupPath (n + 1)) with
      | .error _ => (cleared, false)
      | .ok moved => (moved, true)
  else (host, true)

/-- Moves the backups up to a number on by one, the last of them first, until one cannot be moved. -/
def shiftAll (f : RollingFile) : Nat → Host → Host × Bool
  | 0, host => (host, true)
  | n + 1, host =>
    match f.shift host (n + 1) with
    | (after, false) => (after, false)
    | (after, true) => f.shiftAll n after

/-- Makes the file the first backup. It may be a link to that backup; then it leads nowhere once there is
room, and stays. -/
def putAside (host : Host) (f : RollingFile) : Host × Bool :=
  match clear host (f.backupPath 1) with
  | .error _ => (host, false)
  | .ok cleared =>
    if cleared.isThere f.path then
      match cleared.rename f.path (f.backupPath 1) with
      | .error _ => (cleared, false)
      | .ok moved => (moved, true)
    else (cleared, true)

/-- Puts the file aside and starts a new one. Without backups it goes on as it is. -/
def roll (host : Host) (f : RollingFile) : Host × Bool :=
  let (aside, moved) : Host × Bool :=
    if 0 < f.backups then
      match f.shiftAll (f.backups.toNat - 1) host with
      | (shifted, true) => f.putAside shifted
      | failed => failed
    else (host, true)
  if moved then
    match openAt aside f.path with
    | (fresh, .ok ()) => (fresh, true)
    | (refused, .error _) => (refused, false)
  else (aside, false)

/-- Makes the file ready for a line, and says whether that went well. The file is opened first, so its size is that of
a file which is there. -/
def prepare (host : Host) (f : RollingFile) (line : Text) : Host × Bool :=
  match openAt host f.path with
  | (refused, .error _) => (refused, false)
  | (opened, .ok ()) => if f.isFull opened line then f.roll opened else (opened, true)

/-- Writes a line, which comes with its end. It fails if the line has no bytes, if the file cannot be made
ready for it, or if there is no room for all of it. -/
def write (host : Host) (f : RollingFile) (line : Text) : Host × Bool :=
  match f.prepare host line with
  | (after, false) => (after, false)
  | (ready, true) =>
    match line.encodeStrict with
    | .error _ => (ready, false)
    | .ok bytes =>
      match ready.append f.path bytes with
      | (cut, .error _) => (cut, false)
      | (done, .ok ()) => (done, true)

end RollingFile

end Journal

end HeaderAtlas
