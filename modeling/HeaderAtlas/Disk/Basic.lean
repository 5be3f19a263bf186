import HeaderAtlas.Text.Utf8
/-!
# Disks

A disk is a tree of entries: files, directories, symbolic links, pipes and devices. Names are byte strings.
Every entry says what may be done with it (`Access`), because the tool has to behave well on disks that were
not made for it: directories that can be passed through but not listed, files that can be written but not
read, and links whose target nobody may see.

A pipe holds what is written to it, and a device gives always the same and keeps nothing; neither is a
regular file, so the tool never parses one, but it may well be told to write to one.

A *place* is the list of names that leads from the root to an entry, links not followed. Looking up a
path, links followed, is the business of `HeaderAtlas.Disk.Lookup`.
-/

set_option autoImplicit false

namespace HeaderAtlas

/-- What may be done with an entry. The four can be given apart from one another, and each of them is asked
for by another request; what makes no sense for an entry is not looked at. -/
structure Access where
  /-- A file may be read, a directory listed, and the target of a link seen. -/
  read : Bool := true
  /-- A file may be written, and entries of a directory may be made and removed. -/
  write : Bool := true
  /-- Paths may lead through a directory. -/
  search : Bool := true
  /-- A file may be mapped into memory, which some that can be read cannot. -/
  map : Bool := true
  deriving DecidableEq, Repr, Inhabited

namespace Access

def full : Access := {}

def none : Access := ⟨false, false, false, false⟩

end Access

/-- What a disk holds. A directory keeps its entries in the order in which a listing gives them, and it has no `.` and
no `..`, which are a matter of looking up a path. -/
inductive Entry where
  | file (contents : Bytes) (access : Access)
  | directory (entries : List (Bytes × Entry)) (access : Access)
  | link (target : Bytes) (access : Access)
  | pipe (contents : Bytes) (access : Access)
  | device (answer : Bytes) (access : Access)
  deriving Inhabited

namespace Entry

def access : Entry → Access
  | .file _ access => access
  | .directory _ access => access
  | .link _ access => access
  | .pipe _ access => access
  | .device _ access => access

def isDirectory : Entry → Bool
  | .directory _ _ => true
  | _ => false

def isFile : Entry → Bool
  | .file _ _ => true
  | _ => false

def isLink : Entry → Bool
  | .link _ _ => true
  | _ => false

/-- Whether an entry has size zero. A directory never has, and of a pipe or a device it is always said, for
what comes out of them is not kept there. -/
def isEmpty : Entry → Bool
  | .file contents _ => contents.isEmpty
  | .directory _ _ => false
  | .link target _ => target.isEmpty
  | .pipe _ _ => true
  | .device _ _ => true

/-- What a file or a pipe holds. A device holds nothing: what is written to it is gone. -/
def contents : Entry → Bytes
  | .file contents _ => contents
  | .pipe contents _ => contents
  | _ => []

/-- A file or a pipe with new contents. Nothing can be put into any other entry, a device included. -/
def refill (new : Bytes) : Entry → Entry
  | .file _ access => .file new access
  | .pipe _ access => .pipe new access
  | other => other

def find? (name : Bytes) (entries : List (Bytes × Entry)) : Option Entry :=
  (entries.find? fun entry => entry.1 == name).map (·.2)

def child? (e : Entry) (name : Bytes) : Option Entry :=
  match e with
  | .directory entries _ => find? name entries
  | _ => none

def at? (e : Entry) : List Bytes → Option Entry
  | [] => some e
  | name :: rest => (e.child? name).bind (·.at? rest)

/-- Gives a name its entry in a list of entries: in its place if the name is there, and at the end if it is new. The
order of a directory's entries is what a listing shows, so nothing else may move. -/
def put (name : Bytes) (new : Entry) : List (Bytes × Entry) → List (Bytes × Entry)
  | [] => [(name, new)]
  | entry :: rest =>
    if entry.1 == name then (name, new) :: rest else entry :: put name new rest

/-- Puts an entry at a place. The directories above must be there, or nothing changes. -/
def set (new : Entry) : List Bytes → Entry → Entry
  | [], _ => new
  | [name], .directory entries access => .directory (put name new entries) access
  | name :: rest, .directory entries access =>
    match find? name entries with
    | some below => .directory (put name (set new rest below) entries) access
    | none => .directory entries access
  | _, e => e

/-- Puts an entry at a place and makes the directories above that are missing, as one does to set up a disk. -/
def plant (new : Entry) : List Bytes → Entry → Entry
  | [], _ => new
  | name :: rest, .directory entries access =>
    let below := (find? name entries).getD (.directory [] .full)
    .directory (put name (plant new rest below) entries) access
  | _, e => e

def erase : List Bytes → Entry → Entry
  | [name], .directory entries access =>
    .directory (entries.filter fun entry => entry.1 != name) access
  | name :: rest, .directory entries access =>
    match find? name entries with
    | some below => .directory (put name (erase rest below) entries) access
    | none => .directory entries access
  | _, e => e

mutual

def linkCount : Entry → Nat
  | .link _ _ => 1
  | .directory entries _ => linkCountAll entries
  | _ => 0

def linkCountAll : List (Bytes × Entry) → Nat
  | [] => 0
  | (_, e) :: rest => linkCount e + linkCountAll rest

end

end Entry

structure Disk where
  root : Entry

namespace Disk

def empty : Disk := ⟨.directory [] .full⟩

instance : Inhabited Disk := ⟨empty⟩

def at? (disk : Disk) (place : List Bytes) : Option Entry := disk.root.at? place

def set (disk : Disk) (place : List Bytes) (new : Entry) : Disk := ⟨Entry.set new place disk.root⟩

def erase (disk : Disk) (place : List Bytes) : Disk := ⟨disk.root.erase place⟩

/-- What a disk says when it refuses a request. The last two are said by devices and pipes that are written to. -/
inductive Fault where
  | noEntry
  | denied
  | alreadyThere
  | notDirectory
  | isDirectory
  | tooManyLinks
  | noDevice
  | noSpace
  | brokenPipe
  deriving DecidableEq, Repr

namespace Fault

def number : Fault → Nat
  | .noEntry => 2
  | .denied => 13
  | .alreadyThere => 17
  | .noDevice => 19
  | .notDirectory => 20
  | .isDirectory => 21
  | .noSpace => 28
  | .brokenPipe => 32
  | .tooManyLinks => 40

def reason : Fault → String
  | .noEntry => "No such file or directory"
  | .denied => "Permission denied"
  | .alreadyThere => "File exists"
  | .notDirectory => "Not a directory"
  | .isDirectory => "Is a directory"
  | .tooManyLinks => "Too many levels of symbolic links"
  | .noDevice => "No such device"
  | .noSpace => "No space left on device"
  | .brokenPipe => "Broken pipe"

end Fault

end Disk

end HeaderAtlas
