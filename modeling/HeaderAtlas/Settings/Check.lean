import HeaderAtlas.Disk.Expand
import HeaderAtlas.Journal.Record
import HeaderAtlas.Number.Shortest
import HeaderAtlas.Settings.Basic
import HeaderAtlas.Wildcard
/-!
# Checking a configuration

A configuration may hold values of the wrong type. A strict check refuses the first of them. A lenient
check warns: it takes what it can make sense of and the default for the rest. An unknown format and a
pattern that cannot be matched are refused either way. Paths come out absolute.
-/

set_option autoImplicit false

namespace HeaderAtlas

namespace Settings

inductive Expected where
  | text
  | flag
  | texts
  deriving DecidableEq, Repr

def Expected.name : Expected → Text
  | .text => "str"
  | .flag => "bool"
  | .texts => "list[str]"

/-- Why a value is not what it should be. Either check makes the same complaints; what differs is what becomes of
them. -/
inductive Complaint where
  /-- The configuration is no object. -/
  | notObject (kind : String)
  /-- A member has a value of another kind. -/
  | field (key : Text) (expected : Expected) (kind : String)
  /-- A list holds something that is no text. -/
  | item (key : Text) (index : Nat)
  deriving DecidableEq, Repr

namespace Complaint

def message : Complaint → Text
  | .notObject kind => "Invalid config type: expected dict, received " ++ kind ++ "."
  | .field key expected kind =>
    "Invalid field '" ++ key ++ "': expected " ++ expected.name ++ ", received " ++ kind ++ "."
  | .item key index => "Invalid item in '" ++ key ++ "[" ++ Text.ofNat index ++ "]': expected str."

def remedy : Complaint → Text
  | .notObject _ => "Using defaults."
  | .field _ _ _ => "Using fallback."
  | .item _ _ => "Item discarded."

end Complaint

/-- What a check points out and does not refuse. A strict check gives the last of these warnings only. -/
inductive Warning where
  | complaint (c : Complaint)
  /-- A number was taken for a yes or no. -/
  | number (key given : Text)
  /-- A word was taken for a yes or no. -/
  | word (key given : Text) (value : Bool)
  /-- A text with commas was taken for a list. -/
  | commas (key : Text)
  /-- There is no directory to scan. -/
  | noScanDir (path : Text)
  deriving DecidableEq, Repr

namespace Warning

def message : Warning → Text
  | .complaint c => c.message ++ " " ++ c.remedy
  | .number key given => "Field '" ++ key ++ "' converted from number " ++ given ++ " to bool."
  | .word key given value =>
    "Field '" ++ key ++ "' converted from '" ++ given ++ "' to " ++
      (if value then "True." else "False.")
  | .commas key => "Field '" ++ key ++ "' converted from CSV string to list."
  | .noScanDir path => "Scan directory does not exist: " ++ path

end Warning

/-- A value with the warnings about where it came from, or the complaint that ended the check. -/
abbrev Checked (α : Type) := Except Complaint (α × List Warning)

namespace Checked

def clean {α : Type} (a : α) : Checked α := .ok (a, [])

/-- Goes on with a value. Warnings add up in the order in which values are read, and the first complaint that is not
remedied ends the check. -/
def andThen {α β : Type} (x : Checked α) (f : α → Checked β) : Checked β :=
  match x with
  | .error c => .error c
  | .ok (a, first) =>
    match f a with
    | .error c => .error c
    | .ok (b, more) => .ok (b, first ++ more)

/-- Refuses a value when the check is strict, and otherwise takes another one for it. -/
def complain {α : Type} (strict : Bool) (c : Complaint) (instead : α) : Checked α :=
  if strict then .error c else .ok (instead, [.complaint c])

end Checked

/-! ## Single values -/

/-- A text, without the white space around it. A null is as good as no value and calls for no warning. -/
def readText (strict : Bool) (key fallback : Text) : Json → Checked Text
  | .null => .clean fallback
  | .str t => .clean t.strip
  | other => .complain strict (.field key .text other.kindName) fallback

def yesWords : List Text := ["true", "1", "yes", "y", "on"]

def noWords : List Text := ["false", "0", "no", "n", "off"]

def numberText (x : Float) : Text := Number.floatText "nan" "inf" x

/-- The yes or no that a value of another kind can be taken for. -/
def convertFlag? (key : Text) : Json → Option (Bool × Warning)
  | .int n => if n = 0 ∨ n = 1 then some (n = 1, .number key (Text.ofInt n)) else none
  | .float x => if x == 0 || x == 1 then some (x == 1, .number key (numberText x)) else none
  | .str t =>
    let word := t.strip.lowerAscii
    if yesWords.contains word then some (true, .word key t true)
    else if noWords.contains word then some (false, .word key t false)
    else none
  | _ => none

/-- A yes or no. A strict check converts nothing. -/
def readFlag (strict : Bool) (key : Text) (fallback : Bool) : Json → Checked Bool
  | .bool b => .clean b
  | .null => .clean fallback
  | other =>
    match if strict then none else convertFlag? key other with
    | some (value, warning) => .ok (value, [warning])
    | none => .complain strict (.field key .flag other.kindName) fallback

/-- Texts without the white space around them, and without those that are empty then. -/
def stripAll (ts : List Text) : List Text := (ts.map Text.strip).filter (!·.isEmpty)

/-- The items of a list from the given index on. An item that is no text is left out by a lenient check, and the items
behind it keep their own numbers in warnings. -/
def readItems (strict : Bool) (key : Text) (index : Nat) : List Json → Checked (List Text)
  | [] => .clean []
  | .str t :: rest =>
    (readItems strict key (index + 1) rest).andThen fun ts => .clean (stripAll [t] ++ ts)
  | _ :: rest =>
    (Checked.complain strict (.item key index) ()).andThen fun _ =>
      readItems strict key (index + 1) rest

/-- A list of texts. Where nothing is left of a list it is empty; the fallback is for values that are no lists. -/
def readTexts (strict : Bool) (key : Text) (fallback : List Text) : Json → Checked (List Text)
  | .null => .clean fallback
  | .arr items => readItems strict key 0 items
  | .str t =>
    if strict then .error (.field key .texts (Json.kindName (.str t)))
    else .ok (stripAll (t.splitOn ','), [.commas key])
  | other => .complain strict (.field key .texts other.kindName) fallback

/-- A text that is taken as it is: white space is what an indentation is made of. Unlike the other fields it takes no
null. -/
def readExact (strict : Bool) (key fallback : Text) : Json → Checked Text
  | .str t => .clean t
  | other => .complain strict (.field key .text other.kindName) fallback

/-! ## The fields -/

/-- The settings a configuration gives before paths are made absolute, and the name of its format. The order of the
fields is that of the warnings, and decides which of several complaints is the one that is made. -/
def readFields (host : Host) (strict : Bool) (config : Json.Members) : Checked (Settings × Text) :=
  let base := initial host
  let value (key : Text) (fallback : Json) : Json := (config.get? key).getD fallback
  let text (key : Text) (fallback : Text) : Checked Text :=
    readText strict key fallback (value key (.str fallback))
  let flag (key : Text) (fallback : Bool) : Checked Bool :=
    readFlag strict key fallback (value key (.bool fallback))
  let texts (key : Text) (fallback : List Text) : Checked (List Text) :=
    readTexts strict key fallback (value key (textsValue fallback))
  (text "scan_dir" base.scanDir).andThen fun scanDir =>
  (text "project_root" base.projectRoot).andThen fun projectRoot =>
  (text "output_path" base.outputPath).andThen fun outputPath =>
  (text "output_format" base.format.name).andThen fun formatName =>
  (flag "create_reverse_dependencies" base.reverse).andThen fun reverse =>
  (flag "pretty_print" base.pretty).andThen fun pretty =>
  (texts "include_dirs" base.includeDirs).andThen fun includeDirs =>
  (texts "root_dirs" base.rootDirs).andThen fun rootDirs =>
  (texts "whitelist_wildcards" base.whitelist).andThen fun whitelist =>
  (texts "blacklist_wildcards" base.blacklist).andThen fun blacklist =>
  (texts "cxx_wildcards" base.sources).andThen fun sources =>
  (texts "skip_root_dirs" base.skipped).andThen fun skipped =>
  (texts "root_markers" base.markers).andThen fun markers =>
  (readExact strict "indent" base.indent (value "indent" (.str base.indent))).andThen fun indent =>
  .clean
    ({ scanDir, projectRoot, includeDirs, rootDirs, whitelist, blacklist, sources, skipped, markers,
       reverse, outputPath, pretty, indent
       others := config.filter fun member => !keys.contains member.1 },
      formatName)

def readMembers (strict : Bool) : Json → Checked Json.Members
  | .obj config => .clean config
  | other => .complain strict (.notObject other.kindName) []

/-! ## Paths -/

def absoluteAll (host : Host) : List Text → Except PathError (List Text)
  | [] => .ok []
  | path :: rest =>
    match host.normalizePath path host.cwdText with
    | .error e => .error e
    | .ok first => (absoluteAll host rest).map (first :: ·)

def unique (seen : List Text) : List Text → List Text
  | [] => []
  | t :: rest => if seen.contains t then unique seen rest else t :: unique (t :: seen) rest

/-- The project root of the settings: the one that is given, or the one that is found, or else the
directory that is scanned. -/
def rootDir (host : Host) (s : Settings) (scanDir : Text) : Except PathError Text :=
  if s.projectRoot.isEmpty then .ok ((host.projectRoot [] s.markers).getD scanDir)
  else host.normalizePath s.projectRoot host.cwdText

/-- The path that the document is written to. None at all stays none, where any other field would fall back to the
working directory. -/
def outputFile (host : Host) (path : Text) : Except PathError Text :=
  if path.isEmpty then .ok path else host.normalizePath path host.cwdText

/-- The settings with absolute paths. The project root is the last search directory, and the only root
directory if there is no other. -/
def locate (host : Host) (s : Settings) : Except PathError Settings := do
  let scanDir ← host.normalizePath s.scanDir host.cwdText
  let root ← s.rootDir host scanDir
  let includeDirs ← absoluteAll host s.includeDirs
  let rootDirs ← absoluteAll host s.rootDirs
  let outputPath ← outputFile host s.outputPath
  return { s with
    scanDir := scanDir
    projectRoot := root
    -- searched last, and once, however often it was given
    includeDirs := unique [] (includeDirs ++ [root])
    rootDirs := unique [] (if rootDirs.isEmpty then [root] else rootDirs)
    outputPath := outputPath }

def checkLog : Text := "incgraph.core.pipeline.validator"

def rootRecords (host : Host) (s : Settings) : List Journal.Record :=
  if s.projectRoot.isEmpty then
    match host.projectRoot [] s.markers with
    | none => [.debug checkLog "No project root markers found, using the scan directory"]
    | some _ => []
  else []

/-! ## The check -/

/-- Why a configuration is refused. -/
inductive Refusal where
  | complaint (c : Complaint)
  | format (name : Text)
  | pattern (e : Wildcard.Unsupported)
  /-- A path cannot be made out, or there is no working directory that it could start from. The other three
  are faults of the configuration; this one is not reported as such. -/
  | path (e : PathError)
  deriving DecidableEq, Repr

def Refusal.message : Refusal → Text
  | .complaint c => c.message
  | .format name => "Unsupported output format: " ++ name
  | .pattern e => e.message
  | .path e => e.message []

/-- The outcome of a check, with what is logged on the way. Records are kept also if the check fails later. -/
structure Checkup where
  records : List Journal.Record
  result : Except Refusal (Settings × List Warning)

def patterns (s : Settings) : List Text := s.whitelist ++ s.blacklist ++ s.sources

/-- The last part of a check, for settings whose fields have been read: paths. The search for a project root is logged
between the first path and the others, so what goes wrong with the first is not preceded by a record. -/
def checkPaths (host : Host) (s : Settings) (warnings : List Warning) : Checkup :=
  match host.normalizePath s.scanDir host.cwdText with
  | .error e => ⟨[], .error (.path e)⟩
  | .ok _ =>
    ⟨s.rootRecords host,
      match s.locate host with
      | .error e => .error (.path e)
      | .ok done =>
        .ok (done, warnings ++
          if host.isDirectory done.scanDir then [] else [.noScanDir done.scanDir])⟩

/-- Makes settings of a configuration. The defaults are put together first, and they name the working
directory; so nothing is checked where there is none. -/
def check (host : Host) (strict : Bool) (config : Json) : Checkup :=
  if host.stranded then ⟨[], .error (.path Host.noWorkingDirectory)⟩
  else
    match (readMembers strict config).andThen (readFields host strict) with
    | .error c => ⟨[], .error (.complaint c)⟩
    | .ok ((s, name), warnings) =>
      match Format.ofName? name with
      | none => ⟨[], .error (.format name)⟩
      | some format =>
        match Wildcard.checkAll s.patterns with
        | .error e => ⟨[], .error (.pattern e)⟩
        | .ok _ => checkPaths host { s with format := format } warnings

end Settings

end HeaderAtlas
