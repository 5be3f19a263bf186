import HeaderAtlas.Atlas.Document
import HeaderAtlas.Disk.Expand
import HeaderAtlas.Scan.Params
/-!
# Settings

What a run of the tool goes by. Settings have fixed fields of fixed types. A configuration, which is what
users write, is an object of any members: `Settings/Check` makes settings of it, and `members` is the
configuration that says the same as the settings do.
-/

set_option autoImplicit false

namespace HeaderAtlas

inductive Format where
  | json
  deriving DecidableEq, Repr

namespace Format

def name : Format → Text
  | .json => "json"

def ofName? (given : Text) : Option Format := if given.lowerAscii = name .json then some .json else none

end Format

/-- What a run goes by. Members of a configuration that are no settings are carried along, so that a configuration
that is checked twice still has them. -/
structure Settings where
  /-- The directory that is scanned. -/
  scanDir : Text
  /-- The root of the project. Nothing means that it is looked for. -/
  projectRoot : Text := []
  /-- Where headers are searched, in order. -/
  includeDirs : List Text := []
  /-- The directories whose headers are tracked. -/
  rootDirs : List Text := []
  /-- A file must match one of these to be looked at. -/
  whitelist : List Text := Scan.everyFile
  /-- A file that matches one of these is not looked at. -/
  blacklist : List Text := []
  /-- Files that match one of these are parsed. -/
  sources : List Text := Scan.sourcePatterns
  /-- Names at the top of the scan directory that are not visited. -/
  skipped : List Text := Scan.skippedNames
  /-- The names that mark a project's root. -/
  markers : List Text := Host.defaultMarkers
  /-- Whether dependents are recorded too. -/
  reverse : Bool := true
  /-- The file that the document is written to. Nothing means standard output. -/
  outputPath : Text := []
  /-- The format of the document. -/
  format : Format := .json
  /-- Whether the document is laid out in lines. -/
  pretty : Bool := true
  /-- What a line is indented by for each level. -/
  indent : Text := "\t"
  /-- Members of the configuration that are no settings. -/
  others : Json.Members := []

namespace Settings

/-- The settings of a run for which nothing is configured. They name the working directory, so they differ from one
machine to the next. -/
def initial (host : Host) : Settings := { scanDir := host.cwdText }

/-- The names of the members that are settings, in the order in which they are saved. -/
def keys : List Text :=
  ["scan_dir", "project_root", "include_dirs", "root_dirs", "whitelist_wildcards",
    "blacklist_wildcards", "cxx_wildcards", "skip_root_dirs", "root_markers",
    "create_reverse_dependencies", "output_path", "output_format", "pretty_print", "indent"]

def textsValue (ts : List Text) : Json := .arr (ts.map .str)

def fields (s : Settings) : Json.Members :=
  [ ("scan_dir", .str s.scanDir),
    ("project_root", .str s.projectRoot),
    ("include_dirs", textsValue s.includeDirs),
    ("root_dirs", textsValue s.rootDirs),
    ("whitelist_wildcards", textsValue s.whitelist),
    ("blacklist_wildcards", textsValue s.blacklist),
    ("cxx_wildcards", textsValue s.sources),
    ("skip_root_dirs", textsValue s.skipped),
    ("root_markers", textsValue s.markers),
    ("create_reverse_dependencies", .bool s.reverse),
    ("output_path", .str s.outputPath),
    ("output_format", .str s.format.name),
    ("pretty_print", .bool s.pretty),
    ("indent", .str s.indent) ]

/-- The configuration that says what the settings say. -/
def members (s : Settings) : Json.Members := s.fields ++ s.others

def defaults (host : Host) : Json.Members := (initial host).members

/-- The parameters of the scan. Where no directory is given for headers, the project root is searched and tracked. -/
def params (s : Settings) : Scan.Params where
  scanDir := s.scanDir
  projectRoot := s.projectRoot
  includeDirs := if s.includeDirs.isEmpty then [s.projectRoot] else s.includeDirs
  rootDirs := if s.rootDirs.isEmpty then [s.projectRoot] else s.rootDirs
  whitelist := s.whitelist
  blacklist := s.blacklist
  sources := s.sources
  skipped := s.skipped
  reverse := s.reverse

def style (s : Settings) : Atlas.Style :=
  ⟨s.reverse, if s.pretty then .lines s.indent else .compact⟩

end Settings

end HeaderAtlas
