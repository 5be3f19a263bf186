import HeaderAtlas.Journal.Record
import HeaderAtlas.Scan.Survey
/-!
# Scans

A scan puts what a survey found into an atlas, and counts and logs it. Nodes are requested in the order
of the walk: a directory, the directories in it, and then its files, each with the nodes that its
includes lead to. A scan that fails leaves in the atlas what was requested before.
-/

set_option autoImplicit false

namespace HeaderAtlas

namespace Scan

/-! ## Requests -/

/-- The requests for an include. Only one that leads to a node asks for anything. The edge back is a request of its
own, so an atlas without it is the same atlas otherwise. -/
def Inclusion.requests (reverse : Bool) (file : List Text) (i : Inclusion) : List Request :=
  match i.lead with
  | .tracked path =>
    let target := Path.components path
    .dependency file target :: if reverse then [.dependent target file] else []
  | _ => []

/-- The requests for a file: its own node comes first, even if nothing was parsed. -/
def FileVisit.requests (reverse : Bool) (names : List Text) (f : FileVisit) : List Request :=
  let file := names ++ [f.name]
  .node file :: (f.includes.getD []).flatMap (Inclusion.requests reverse file)

/-- The requests for a directory and what it holds. All directories in it come before its files, so each has a node
even if the walk fails at one of the files. -/
def Visit.requests (reverse : Bool) (v : Visit) : List Request :=
  .node v.names :: (v.directories.map fun name => .node (v.names ++ [name])) ++
    v.files.flatMap (FileVisit.requests reverse v.names)

def Survey.requests (reverse : Bool) (s : Survey) : List Request :=
  s.visits.flatMap (Visit.requests reverse)

/-! ## Statistics -/

/-- What a scan counts. Files are all that were come across, parsed or not, and each include is either tracked or
dropped. -/
structure Stats where
  directories : Nat := 0
  files : Nat := 0
  parsedFiles : Nat := 0
  includesFound : Nat := 0
  includesDropped : Nat := 0
  deriving DecidableEq, Repr

namespace Stats

def text (s : Stats) : Text :=
  "ScanStats(directories=" ++ Text.ofNat s.directories ++ ", files=" ++ Text.ofNat s.files ++
    ", parsed_files=" ++ Text.ofNat s.parsedFiles ++
    ", includes_found=" ++ Text.ofNat s.includesFound ++
    ", includes_dropped=" ++ Text.ofNat s.includesDropped ++ ")"

end Stats

namespace Survey

def files (s : Survey) : List FileVisit := s.visits.flatMap (·.files)

def inclusions (s : Survey) : List Inclusion := s.files.flatMap fun f => f.includes.getD []

/-- The counts of a survey. They are read off what was found and not kept along the way, so they cannot disagree with
it. -/
def stats (s : Survey) : Stats where
  directories := s.visits.length
  files := s.files.length
  parsedFiles := (s.files.filter (·.includes.isSome)).length
  includesFound := s.inclusions.length
  includesDropped := (s.inclusions.filter fun i => !i.lead.isTracked).length

end Survey

/-! ## The log -/

def walkerLog : Text := "incgraph.core.services.walker"
def resolverLog : Text := "incgraph.core.analysis.include_resolver"
def pathLog : Text := "incgraph.infra.fs"

/-- The records for an include of the file with the given names. Only includes that lead to no node leave a record of
their own; a blank one leaves none. -/
def Inclusion.records (file : List Text) (i : Inclusion) : List Journal.Record :=
  let snags := i.snags.map fun snag => Journal.Record.debug pathLog snag.message
  let drop := match i.lead with
    | .unresolved header =>
      [Journal.Record.debug resolverLog ("Dropping unresolved include '" ++ header ++ "' in '" ++
        Text.join [Path.slash] file ++ "'")]
    | .external header target =>
      [Journal.Record.debug resolverLog ("Dropping external include '" ++ header ++ "' -> '" ++ target ++ "'")]
    | _ => []
  snags ++ drop

/-- The records for a directory and what it holds. The number of files counts those that a failed walk did not come
to. -/
def Visit.records (v : Visit) : List Journal.Record :=
  let name := if v.names.isEmpty then Path.here else Text.join [Path.slash] v.names
  Journal.Record.debug walkerLog ("Visiting '" ++ name ++ "': " ++ Text.ofNat v.directories.length ++
      " dirs, " ++ Text.ofNat v.fileCount ++ " files") ::
    v.files.flatMap fun f =>
      (f.includes.getD []).flatMap (Inclusion.records (v.names ++ [f.name]))

/-! ## Scanning -/

/-- What a scan gives: the atlas, the statistics if it came to its end, and the log. -/
structure Outcome where
  atlas : Atlas
  result : Except Failure Stats
  records : List Journal.Record

/-- The outcome of a scan that found `survey`, put into the atlas `a`. A walk that failed is put in as far as it came;
if the atlas refuses a request, that is what is reported, since it comes first. -/
def Survey.outcome (survey : Survey) (path : Text) (reverse : Bool) (a : Atlas) : Outcome :=
  let begun := Journal.Record.info walkerLog ("Scanning directory tree: " ++ path)
  let seen := begun :: survey.visits.flatMap Visit.records
  match a.performAll (survey.requests reverse) with
  | (b, .error e) => ⟨b, .error (.atlas e), seen⟩
  | (b, .ok ()) =>
    match survey.failure with
    | some e => ⟨b, .error e, seen⟩
    | none =>
      ⟨b, .ok survey.stats,
        seen ++ [Journal.Record.debug walkerLog ("Walk finished: " ++ survey.stats.text)]⟩

/-- Whether a file, given by its path and its name, is a candidate and a source. Patterns for sources are not looked
at for a file that is no candidate. -/
def Params.selects (p : Params) (path name : Text) : Except Failure Bool :=
  match FileClass.isCandidate name p.whitelist p.blacklist with
  | .error e => .error (.pattern e)
  | .ok false => .ok false
  | .ok true =>
    match FileClass.isParsed path p.sources with
    | .error e => .error (.pattern e)
    | .ok answer => .ok answer

def Params.scope (host : Host) (p : Params) : Except Failure Scope :=
  match Resolver.ofParams host p with
  | .error (e, path) => .error (.path e path)
  | .ok resolver => .ok ⟨host, resolver, p.scanDir, p.skipped, p.selects⟩

/-- Scans what a scope looks at into an atlas. Without a scope nothing is logged, not even that a scan begins. -/
def runIn (scope : Except Failure Scope) (reverse : Bool) (a : Atlas) : Outcome :=
  match scope with
  | .error e => ⟨a, .error e, []⟩
  | .ok s => s.surveyTop.outcome (s.host.absolute s.scanDir) reverse a

/-- Scans into an atlas. What is in the atlas already stays, and a scan adds to it. -/
def run (host : Host) (params : Params) (a : Atlas) : Outcome :=
  runIn (params.scope host) params.reverse a

namespace Failure

def message : Failure → Text
  | .path e dir => e.message dir
  | .listing (.fault f) _ => "Failed to list directory (" ++ f.reason ++ ")"
  | .listing e dir => e.message dir
  | .reading e file => "Failed to open file for parsing (" ++ e.message file ++ ")"
  | .pattern e => e.message
  | .misfit e => e.message
  | .atlas e => e.message

/-- The file or directory that could not be used. It is not told again where the message has it already. -/
def path? : Failure → Option Text
  | .listing (.fault _) dir => some dir
  | .reading _ file => some file
  | _ => none

/-- The message with the file or directory behind it, where one is to be named. -/
def fullMessage (f : Failure) : Text :=
  match f.path? with
  | some (c :: rest) => f.message ++ ": " ++ (c :: rest)
  | _ => f.message

end Failure

end Scan

end HeaderAtlas
