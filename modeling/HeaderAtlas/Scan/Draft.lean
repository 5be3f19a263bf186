import HeaderAtlas.Scan.Basic
import HeaderAtlas.Wildcard.Value
/-!
# Drafts of parameters

A configuration is read into a draft, in which a name or a pattern may be a value of any kind. A scan can
be made from a draft too. A value of the wrong kind is a fault when something is done with it, and not
before.
-/

set_option autoImplicit false

namespace HeaderAtlas

namespace Scan

/-- The parameters of a scan before anything is asked of them. Only the switch is settled: whatever counts as true
sets it. -/
structure Draft where
  scanDir : Json
  projectRoot : Json
  includeDirs : List Json
  rootDirs : List Json
  whitelist : List Json
  blacklist : List Json
  sources : List Json
  skipped : List Json
  reverse : Bool

namespace Draft

/-- Why a configuration gives no draft: a member is not there, a value is no list, or the whole is no object. Anything
else is a fault of the scan and not of the draft. -/
inductive Missing where
  | key (name : Text)
  | list (kind : String)
  | members (kind : String)
  deriving DecidableEq, Repr

def Missing.message : Missing → Text
  | .key name => name.quoted
  | .list kind => "'" ++ kind ++ "' object is not iterable"
  | .members "list" => "list indices must be integers or slices, not str"
  | .members "str" => "string indices must be integers, not 'str'"
  | .members kind => "'" ++ kind ++ "' object is not subscriptable"

/-- The values in a list. A text where a list should be counts as the list of its characters, and an
object as the list of its names. -/
def valuesOf : Json → Except Missing (List Json)
  | .arr items => .ok items
  | .str t => .ok (t.map fun c => .str [c])
  | .obj members => .ok (members.map fun m => .str m.1)
  | other => .error (.list other.kindName)

/-- The values in a list that may be absent. Whatever counts as false will do for an empty list, be it a list
or not. -/
def optionalValues (config : Json.Members) (name : Text) : Except Missing (List Json) :=
  match config.get? name with
  | none => .ok []
  | some value => if value.truthy then valuesOf value else .ok []

def required (config : Json.Members) (name : Text) : Except Missing Json :=
  match config.get? name with
  | none => .error (.key name)
  | some value => .ok value

def requiredValues (config : Json.Members) (name : Text) : Except Missing (List Json) :=
  match required config name with
  | .error e => .error e
  | .ok value => valuesOf value

/-- The draft that a configuration gives. Without search or root directories the project's root is the only one. The
order of the members decides which of several faults is the one that is met. -/
def ofConfig (config : Json.Members) : Except Missing Draft := do
  let projectRoot ← required config "project_root"
  let includeDirs ← optionalValues config "include_dirs"
  let rootDirs ← optionalValues config "root_dirs"
  let scanDir ← required config "scan_dir"
  let whitelist ← requiredValues config "whitelist_wildcards"
  let blacklist ← requiredValues config "blacklist_wildcards"
  let sources ← requiredValues config "cxx_wildcards"
  let skipped ← requiredValues config "skip_root_dirs"
  let reverse ← required config "create_reverse_dependencies"
  return {
    scanDir := scanDir
    projectRoot := projectRoot
    includeDirs := if includeDirs.isEmpty then [projectRoot] else includeDirs
    rootDirs := if rootDirs.isEmpty then [projectRoot] else rootDirs
    whitelist := whitelist
    blacklist := blacklist
    sources := sources
    skipped := skipped
    reverse := reverse.truthy }

/-- The draft that any value gives. Only an object has members to ask for, but what is said about another value
depends on its kind. -/
def ofValue : Json → Except Missing Draft
  | .obj config => ofConfig config
  | other => .error (.members other.kindName)

/-- The path that a value is. This is the first point at which the kind of a directory's value matters. -/
def pathOf : Json → Except Json.Misfit Text
  | .str path => .ok path
  | other => .error (.path other.kindName)

def typical (host : Host) (projectRoot scanDir : Json) : Except Json.Misfit Params := do
  let root ← pathOf projectRoot
  let dir ← if scanDir.truthy then pathOf scanDir else .ok []
  return Params.typical host root dir

/-! ## Scanning -/

def canonical (host : Host) (value : Json) : Except Failure Text :=
  match pathOf value with
  | .error e => .error (.misfit e)
  | .ok dir =>
    match host.canonical dir with
    | .ok found => .ok found
    | .error (e, path) => .error (.path e path)

/-- Canonical paths of several directories. The first that has none is the fault, so later ones are not looked at. -/
def canonicalAll (host : Host) : List Json → Except Failure (List Text)
  | [] => .ok []
  | dir :: rest =>
    match canonical host dir with
    | .error e => .error e
    | .ok first => (canonicalAll host rest).map (first :: ·)

/-- The resolver of a draft. It asks for the same paths in the same order as that of the parameters, and has one more
way to fail. -/
def resolver (host : Host) (d : Draft) : Except Failure Resolver := do
  let scanDir ← canonical host d.scanDir
  let includeDirs ← canonicalAll host d.includeDirs
  let rootDirs ← canonicalAll host d.rootDirs
  return ⟨scanDir, includeDirs, rootDirs⟩

/-- The names in a set of values. Lists and objects cannot be in a set; any other value can, but names no entry. -/
def namesOf : List Json → Except Failure (List Text)
  | [] => .ok []
  | .str name :: rest => (namesOf rest).map (name :: ·)
  | .arr _ :: _ => .error (.misfit (.member "list"))
  | .obj _ :: _ => .error (.misfit (.member "dict"))
  | _ :: rest => namesOf rest

def patternFailure : Wildcard.ValueError → Failure
  | .unsupported e => .pattern e
  | .misfit e => .misfit e

/-- Whether a file is a candidate and a source, as with parameters, but with patterns that may be of any kind. A fault
is met only when a file is matched with the pattern. -/
def selects (d : Draft) (path name : Text) : Except Failure Bool :=
  match FileClass.passes (Wildcard.isMatchOfValue name) d.whitelist d.blacklist with
  | .error e => .error (patternFailure e)
  | .ok false => .ok false
  | .ok true =>
    match Wildcard.anyMatch (Wildcard.isMatchOfValue (Path.base path)) d.sources with
    | .error e => .error (patternFailure e)
    | .ok answer => .ok (answer || FileClass.isHeaderPath path)

def scope (host : Host) (d : Draft) : Except Failure Scope := do
  let resolver ← d.resolver host
  let skipped ← namesOf d.skipped
  return ⟨host, resolver, d.scanDir.asText, skipped, d.selects⟩

/-- Scans a draft. On a draft whose values are of the right kinds this is the scan of its parameters. -/
def run (host : Host) (d : Draft) (a : Atlas) : Outcome := runIn (d.scope host) d.reverse a

end Draft

end Scan

end HeaderAtlas
