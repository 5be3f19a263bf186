import HeaderAtlas.Disk.Basic
/-!
# Looking up a path on a disk

A path is followed component by component from the root or from a directory. Each step needs a directory
that may be searched; whether it may be listed does not matter here. A link on the way is replaced by its
target, which must be one that may be seen; the last component's link is replaced too if the caller follows
links or the path ends with a slash, which asks for a directory. At most forty links are followed, and the
forty-first is one too many whatever its target is.
-/

set_option autoImplicit false

namespace HeaderAtlas

namespace Disk

def slashByte : UInt8 := 0x2F

def dot : Bytes := [0x2E]

def dotDot : Bytes := [0x2E, 0x2E]

def maxName : Nat := 255

def maxPath : Nat := 4096

def maxLinks : Nat := 40

/-- The components of a path. Slashes that follow one another count as one, so an empty component is none. -/
def pathNames (path : Bytes) : List Bytes := (splitList slashByte path).filter (!·.isEmpty)

/-- Whether a path begins at the root. What the working directory is does not matter to it then. -/
def isRooted (path : Bytes) : Bool := path.head? == some slashByte

/-- Whether a path asks for a directory by its last byte. The components do not tell, so this is looked at apart from
them. -/
def endsWithSlash (path : Bytes) : Bool := path.getLast? == some slashByte

/-- What a path leads to: an entry at its place, or a free place in a directory that is there. `slash`
says that the path, or the last link on it, ends with a slash and so asks for a directory. -/
inductive Target where
  | found (place : List Bytes) (entry : Entry) (slash : Bool)
  | free (place : List Bytes) (slash : Bool)

/-- Follows components from a place on. `links` is the number of links that may still be followed, `follow` says
whether the last component's link is followed, and `wantDirectory` whether the path asks for a directory. A directory
must be searchable even for `.` and `..`, and the one above the root is the root. -/
def walk (disk : Disk) (follow wantDirectory : Bool) (links : Nat) (place : List Bytes) :
    List Bytes → Except Fault Target
  | [] =>
    match disk.at? place with
    | none => .error .noEntry
    | some entry => .ok (.found place entry wantDirectory)
  | name :: rest =>
    match disk.at? place with
    | some (.directory entries access) =>
      if access.search = false then .error .denied
      else if name = dot then walk disk follow wantDirectory links place rest
      else if name = dotDot then walk disk follow wantDirectory links place.dropLast rest
      else if maxName < name.length then .error .noEntry
      else
        match Entry.find? name entries with
        | none => if rest.isEmpty then .ok (.free (place ++ [name]) wantDirectory) else .error .noEntry
        | some (.link target access) =>
          if rest.isEmpty && !follow && !wantDirectory then
            .ok (.found (place ++ [name]) (.link target access) false)
          else
            match links with
            | 0 => .error .tooManyLinks
            | links + 1 =>
              if access.read = false then .error .denied
              else
                let want := wantDirectory || (rest.isEmpty && endsWithSlash target)
                let start := if isRooted target then [] else place
                -- what is left is followed from where the target leads, which need not be where the link stands
                walk disk follow want links start (pathNames target ++ rest)
        | some _ => walk disk follow wantDirectory links (place ++ [name]) rest
    | _ => .error .notDirectory
termination_by names => (links, names.length)

/-- What a path leads to from the directory at the place `cwd`. A path that is too long leads nowhere, wherever its
components would. -/
def locate (disk : Disk) (cwd : List Bytes) (follow : Bool) (path : Bytes) : Except Fault Target :=
  if path.isEmpty || maxPath ≤ path.length then .error .noEntry
  else
    walk disk follow (endsWithSlash path) maxLinks (if isRooted path then [] else cwd)
      (pathNames path)

/-- The entry that a path leads to, with its place. It must be a directory if the path asks for one. -/
def entry (disk : Disk) (cwd : List Bytes) (follow : Bool) (path : Bytes) :
    Except Fault (List Bytes × Entry) :=
  match disk.locate cwd follow path with
  | .ok (.found place entry slash) =>
    if slash && !entry.isDirectory then .error .notDirectory else .ok (place, entry)
  | .ok (.free _ _) => .error .noEntry
  | .error e => .error e

end Disk

end HeaderAtlas
