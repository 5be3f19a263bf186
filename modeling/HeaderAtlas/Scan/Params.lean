import HeaderAtlas.Disk.Host
import HeaderAtlas.Json.Shown
/-!
# Parameters of a scan

What a caller says about a scan. The parameters are taken as they are: paths are made canonical only when the scan
begins, and patterns are found to be at fault only when a file is matched with them.
-/

set_option autoImplicit false

namespace HeaderAtlas

namespace Scan

def everyFile : List Text := ["*"]

/-- What is parsed unless something else is asked for. A file below a directory named `include` is parsed whether it
matches or not. -/
def sourcePatterns : List Text := ["*.hpp", "*.cpp", "*.h", "*.ipp"]

/-- What is left out at the top of the scan directory unless something else is asked for: what a checkout brings along
and what a build leaves behind. Further down the same names are visited. -/
def skippedNames : List Text := ["boost", ".git", "bin.v2", "stage", "build"]

/-- The parameters of a scan. Only where to scan and what the project is must be said; with the other defaults there
is no root directory, so every include is dropped. -/
structure Params where
  /-- The directory that is walked. -/
  scanDir : Text
  /-- The root of the project. -/
  projectRoot : Text
  /-- Where headers are searched, in order. -/
  includeDirs : List Text := []
  /-- The directories whose headers are tracked. -/
  rootDirs : List Text := []
  /-- A file must match one of these to be looked at. -/
  whitelist : List Text := everyFile
  /-- A file that matches one of these is not looked at. -/
  blacklist : List Text := []
  /-- Files that match one of these are parsed. -/
  sources : List Text := sourcePatterns
  /-- Names at the top of the scan directory that are not visited. -/
  skipped : List Text := skippedNames
  /-- Whether dependents are recorded too. -/
  reverse : Bool := true
  deriving DecidableEq, Repr

namespace Params

/-- Scans a whole project, or one directory of it, with the project's root as the only search
directory. -/
def typical (host : Host) (projectRoot scanDir : Text) : Params :=
  let root := host.absolute projectRoot
  { scanDir := if scanDir.isEmpty then root else host.absolute scanDir
    projectRoot := root
    includeDirs := [root]
    rootDirs := [root] }

def tupleText : List Text → Text
  | [] => "()"
  | [t] => "(" ++ t.quoted ++ ",)"
  | ts => "(" ++ Text.join ", " (ts.map Text.quoted) ++ ")"

/-- The parameters in one line, as the log shows them. A text stands in quotes, so that a blank or an empty one can be
told apart. -/
def text (p : Params) : Text :=
  "ScanParams(scan_dir=" ++ p.scanDir.quoted ++ ", project_root=" ++ p.projectRoot.quoted ++
    ", include_dirs=" ++ tupleText p.includeDirs ++ ", root_dirs=" ++ tupleText p.rootDirs ++
    ", whitelist_wildcards=" ++ tupleText p.whitelist ++
    ", blacklist_wildcards=" ++ tupleText p.blacklist ++ ", cxx_wildcards=" ++ tupleText p.sources ++
    ", skip_root_dirs=" ++ tupleText p.skipped ++
    ", create_reverse_dependencies=" ++ Text.ofBool p.reverse ++ ")"

end Params

end Scan

end HeaderAtlas
