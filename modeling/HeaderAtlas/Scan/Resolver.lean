import HeaderAtlas.Atlas.Request
import HeaderAtlas.Disk.Links
import HeaderAtlas.Scan.Params
import HeaderAtlas.Source.Directive
/-!
# From include directives to nodes

A header is looked for in the directory of the file that includes it, if it is written in quotes, and
then in the search directories in order. The first regular file found is the one meant. It is tracked
if it lies in one of the root directories, and then its node is named by its path in the scan
directory, or in the first root directory that holds it.
-/

set_option autoImplicit false

namespace HeaderAtlas

namespace Scan

/-- The directories that headers are resolved with, all in canonical form. Since they have no links in them, what is
found beneath them can be compared with them by its text. -/
structure Resolver where
  scanDir : Text
  includeDirs : List Text
  rootDirs : List Text
  deriving DecidableEq, Repr

/-- Where an include leads. -/
inductive Lead where
  /-- The header has no characters. -/
  | blank
  /-- No file was found. -/
  | unresolved (header : Text)
  /-- The file lies in no root directory. -/
  | external (header file : Text)
  /-- The file's node has this path. -/
  | tracked (path : Text)
  deriving DecidableEq, Repr

def Lead.isTracked : Lead → Bool
  | .tracked _ => true
  | _ => false

namespace Resolver

def canonicalAll (host : Host) : List Text → Except (PathError × Text) (List Text)
  | [] => .ok []
  | dir :: rest =>
    match host.canonical dir with
    | .error e => .error e
    | .ok first => (canonicalAll host rest).map (first :: ·)

/-- The resolver for a scan. A directory that has no canonical form is an error with the path that is at
fault, which need not be the directory: it may be a link on the way to it. -/
def ofParams (host : Host) (params : Params) : Except (PathError × Text) Resolver := do
  let scanDir ← host.canonical params.scanDir
  let includeDirs ← canonicalAll host params.includeDirs
  let rootDirs ← canonicalAll host params.rootDirs
  return ⟨scanDir, includeDirs, rootDirs⟩

/-- What is tried for a header that is included from the directory `dir` of the scan directory: trusted
directories, each with a path to resolve in it. -/
def probes (r : Resolver) (header : Text) (angled : Bool) (dir : Text) : List (Text × Text) :=
  -- the path goes through the directory of the file, which may itself be reached by a link
  let nearby := if angled then [] else
    [(r.scanDir, if dir.isEmpty then header else Path.join dir header)]
  nearby ++ r.includeDirs.map fun base => (base, header)

/-- The file that one probe finds. A path that cannot be peeled finds nothing, and the search goes on with the next
directory. -/
def probe? (host : Host) (base path : Text) : Option Text :=
  match host.peel base path with
  | .ok file => if host.isFile file then some file else none
  | .error _ => none

def resolve? (host : Host) (r : Resolver) (header : Text) (angled : Bool) (dir : Text) :
    Option Text :=
  (r.probes header angled dir).findSome? fun (base, path) => probe? host base path

/-- What stood in the way of the probes up to the first that finds a file. It is kept for the log, and has no say in
what is found. -/
def snags (host : Host) : List (Text × Text) → List Host.Snag
  | [] => []
  | (base, path) :: rest =>
    match host.peel base path with
    | .error snag => snag :: snags host rest
    | .ok file => if host.isFile file then [] else snags host rest

structure NoPath where
  deriving DecidableEq, Repr

def NoPath.message (_ : NoPath) : Text := "no path specified"

def nodePath (host : Host) (file base : Text) : Except NoPath Text :=
  if file.isEmpty then .error ⟨⟩ else .ok (Path.relative host.cwdText file base)

def containing? (host : Host) (path : Text) (dirs : List Text) : Option Text :=
  dirs.find? fun dir => Path.contains host.cwdText dir path

/-- The path of a file's node, if the file is tracked. A file in the scan directory is named from there even if a root
directory lies deeper, so that it has the node it was visited under. -/
def nodePathFor (host : Host) (r : Resolver) (file : Text) : Except NoPath (Option Text) :=
  match containing? host file r.rootDirs with
  | none => .ok none
  | some root =>
    let base := if Path.contains host.cwdText r.scanDir file then r.scanDir else root
    (nodePath host file base).map some

/-- Where a directive in a file of the directory `dir` leads. A file that is found always has a path, so one without a
node is external. -/
def lead (host : Host) (r : Resolver) (d : Source.Directive) (dir : Text) : Lead :=
  let header := d.header.toText
  if header.isEmpty then .blank
  else
    match r.resolve? host header d.angled dir with
    | none => .unresolved header
    | some file =>
      match r.nodePathFor host file with
      | .ok (some path) => .tracked path
      | _ => .external header file

end Resolver

/-! ## Adding single includes

A scan collects all includes before it touches an atlas. A tracker serves a caller that has an atlas and a
node in hand: it adds one include at a time and counts those that lead to no node. -/

/-- An atlas that includes are added to, and how many of them led to no node. -/
structure Tracker where
  atlas : Atlas
  dropped : Nat

namespace Tracker

def empty : Tracker := ⟨Atlas.empty, 0⟩

/-- Draws an include from node `i` to node `j`, in both directions if `reverse` is set. -/
def connect (reverse : Bool) (a : Atlas) (i j : Nat) : Atlas :=
  let forth := (a.addDependency i j).1
  if reverse then (forth.addDependent j i).1 else forth

/-- Adds what a directive in the file of node `i` leads to, and gives the node of it. The file lies in
the directory `dir` of the scan directory. -/
def add (t : Tracker) (host : Host) (r : Resolver) (reverse : Bool) (i : Nat)
    (d : Source.Directive) (dir : Text) : Tracker × Except AtlasFault (Option Nat) :=
  match r.lead host d dir with
  | .tracked path =>
    match t.atlas.addPath Atlas.root path Path.root with
    | (a, .error e) => (⟨a, t.dropped⟩, .error e)
    | (a, .ok j) => (⟨connect reverse a i j, t.dropped⟩, .ok (some j))
  | _ => (⟨t.atlas, t.dropped + 1⟩, .ok none)

end Tracker

end Scan

end HeaderAtlas
