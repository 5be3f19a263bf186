import HeaderAtlas.Atlas.Request
import HeaderAtlas.Scan.Resolver
import HeaderAtlas.Source.Includes
import HeaderAtlas.Wildcard
/-!
# Surveys

A survey is what a walk over the scan directory finds: the directories it visits, what they hold, and
where the includes of the parsed files lead. It does not depend on any atlas; the requests to an
atlas, the statistics and the log of a scan are all read off the survey.

A directory is visited before those in it. Its entries are taken in the order of the code points of
their names: first all that are no directories, then the directories. Links to directories are seen
but not entered. The first directory that cannot be listed and the first file that cannot be read end
the walk.
-/

set_option autoImplicit false

namespace HeaderAtlas

/-! ## Entries in order -/

/-- Whether a name comes before another or is the same, by code points. This is not the order of nodes in an atlas,
which go by the bytes of their names. -/
def Bytes.nameLe (a b : Bytes) : Bool := Text.isLe a.toText b.toText

mutual

/-- The entry with all directories in it sorted by name. Sorting the whole tree beforehand lets the walk go down it by
structural recursion. -/
def Entry.sorted : Entry → Entry
  | .directory entries access =>
    .directory ((Entry.sortedAll entries).mergeSort fun a b => Bytes.nameLe a.1 b.1) access
  | .file contents access => .file contents access
  | .link target access => .link target access
  | .pipe contents access => .pipe contents access
  | .device answer access => .device answer access

def Entry.sortedAll : List (Bytes × Entry) → List (Bytes × Entry)
  | [] => []
  | (name, e) :: rest => (name, e.sorted) :: Entry.sortedAll rest

end

namespace Scan

/-! ## What is found -/

/-- An include of a parsed file: the links that stood in the way of the search, and where it leads. -/
structure Inclusion where
  snags : List Host.Snag
  lead : Lead
  deriving DecidableEq, Repr

structure FileVisit where
  name : Text
  includes : Option (List Inclusion)
  deriving DecidableEq, Repr

/-- A directory that was visited. If the walk ended there, `files` stops with the file that ended it,
while `fileCount` counts all. -/
structure Visit where
  names : List Text
  directories : List Text
  fileCount : Nat
  files : List FileVisit
  deriving DecidableEq, Repr

/-- Why a scan ended early. -/
inductive Failure where
  /-- A directory has no canonical form. -/
  | path (e : PathError) (path : Text)
  /-- A directory cannot be listed. -/
  | listing (e : PathError) (path : Text)
  /-- A file cannot be read. -/
  | reading (e : PathError) (path : Text)
  /-- A pattern cannot be matched. -/
  | pattern (e : Wildcard.Unsupported)
  /-- A parameter is of a kind that cannot be used. -/
  | misfit (e : Json.Misfit)
  /-- The atlas refused a request. -/
  | atlas (e : AtlasFault)
  deriving DecidableEq, Repr

/-- What a walk found before it came to its end or failed. A walk that failed keeps what it found, as a scan puts that
into the atlas all the same. -/
structure Survey where
  visits : List Visit
  failure : Option Failure
  deriving DecidableEq, Repr

/-- What a walk looks at. How files are selected is left open, since it may be by checked patterns or by the values of
a configuration. -/
structure Scope where
  host : Host
  resolver : Resolver
  /-- The directory that is walked. -/
  scanDir : Text
  /-- Names at the top of that directory that are not visited. -/
  skipped : List Text
  /-- Whether a regular file, given by its path and its name, is parsed. -/
  selects : Text → Text → Except Failure Bool

/-- The bytes of a file that is mapped into memory: it has to be one that can be opened first. -/
def mapped (host : Host) (path : Text) (entry : Entry) : Except PathError Bytes :=
  match host.read path with
  | .error e => .error e
  | .ok contents => if entry.access.map then .ok contents else .error (.bare .noDevice)

/-- The include directives of a file. A file of size zero has none, and is not opened. Any other is mapped into
memory, for it may be large. -/
def readIncludes (host : Host) (path : Text) : Except PathError (List Source.Directive) :=
  match host.entry true path with
  | .error e => .error e
  | .ok (_, entry) =>
    if entry.isEmpty then .ok [] else (mapped host path entry).map Source.includes

namespace Scope

/-! ## Files -/

/-- A directive of a file in the directory with the given names. -/
def inclusion (s : Scope) (names : List Text) (d : Source.Directive) : Inclusion :=
  let dir := Text.join [Path.slash] names
  let header := d.header.toText
  let snags :=
    -- an empty header is dropped before anything is searched for it
    if header.isEmpty then [] else Resolver.snags s.host (s.resolver.probes header d.angled dir)
  ⟨snags, s.resolver.lead s.host d dir⟩

/-- Whether a file is parsed: it is a regular file and selected. -/
def isParsed (s : Scope) (path name : Text) : Except Failure Bool :=
  if s.host.isFile path then s.selects path name else .ok false

def visitFile (s : Scope) (path : Text) (names : List Text) (name : Text) :
    Except Failure FileVisit :=
  let full := Path.join path name
  match s.isParsed full name with
  | .error e => .error e
  | .ok false => .ok ⟨name, none⟩
  | .ok true =>
    match readIncludes s.host full with
    | .error e => .error (.reading e full)
    | .ok directives => .ok ⟨name, some (directives.map (s.inclusion names))⟩

/-- Visits files up to the first that fails. That one has been seen and is counted among the visited, without
includes. -/
def visitFiles (s : Scope) (path : Text) (names : List Text) :
    List Text → List FileVisit × Option Failure
  | [] => ([], none)
  | name :: rest =>
    match s.visitFile path names name with
    | .error e => ([⟨name, none⟩], some e)
    | .ok file =>
      let (files, failure) := s.visitFiles path names rest
      (file :: files, failure)

/-! ## Directories -/

/-- Whether an entry is left out: those at the top may be. Files can be left out by name as well as directories. -/
def isSkipped (s : Scope) (names : List Text) (name : Text) : Bool :=
  names.isEmpty && s.skipped.contains name

/-- Whether an entry of the directory at `path` counts as a directory, links followed. -/
def isDirectory (s : Scope) (path : Text) (entry : Bytes × Entry) : Bool :=
  match entry.2 with
  | .directory _ _ => true
  | .link _ _ => s.host.isDirectory (Path.join path entry.1.toText)
  | _ => false

/-- Visits a directory that was listed. Whether entries are directories is asked before any file is read. -/
def visit (s : Scope) (path : Text) (names : List Text) (entries : List (Bytes × Entry)) :
    Visit × Option Failure :=
  let shown := entries.filter fun entry => !s.isSkipped names entry.1.toText
  let directories := shown.filter (s.isDirectory path)
  let others := shown.filter fun entry => !s.isDirectory path entry
  let (files, failure) := s.visitFiles path names (others.map fun entry => entry.1.toText)
  (⟨names, directories.map fun entry => entry.1.toText, others.length, files⟩, failure)

mutual

/-- Surveys the directory at `path`, whose entries are sorted. That it can be listed is asked of the host, as its path
may have become too long or its access been denied. -/
def survey (s : Scope) (path : Text) (names : List Text) : Entry → Survey
  | .directory entries _ =>
    match s.host.list path with
    | .error e => ⟨[], some (.listing e path)⟩
    | .ok _ =>
      match s.visit path names entries with
      | (visit, some e) => ⟨[visit], some e⟩
      | (visit, none) =>
        let below := surveyAll s path names entries
        ⟨visit :: below.visits, below.failure⟩
  | _ => ⟨[], none⟩

/-- Surveys the directories among the entries of the directory at `path`. A link is none here, so no directory is
entered twice by way of links. -/
def surveyAll (s : Scope) (path : Text) (names : List Text) : List (Bytes × Entry) → Survey
  | [] => ⟨[], none⟩
  | (name, entry) :: rest =>
    if s.isSkipped names name.toText then surveyAll s path names rest
    else
      let first := survey s (Path.join path name.toText) (names ++ [name.toText]) entry
      match first.failure with
      | some e => ⟨first.visits, some e⟩
      | none =>
        let more := surveyAll s path names rest
        ⟨first.visits ++ more.visits, more.failure⟩

end

/-- Surveys the scan directory, which may be reached by a link. -/
def surveyTop (s : Scope) : Survey :=
  let path := s.host.absolute s.scanDir
  match s.host.list path with
  | .error e => ⟨[], some (.listing e path)⟩
  | .ok entries => s.survey path [] (Entry.directory entries .full).sorted

end Scope

end Scan

end HeaderAtlas
