import HeaderAtlas.Disk.Write
import HeaderAtlas.Json.Reader
import HeaderAtlas.Json.Writer
import HeaderAtlas.Journal.Record
import HeaderAtlas.Settings.Basic
/-!
# Configuration files

A configuration file is a JSON object. What it says replaces the defaults; members that are no settings
are neither written nor read. The defaults name the working directory, so they cannot be had where that has
been removed, whatever the file says.
-/

set_option autoImplicit false

namespace HeaderAtlas

/-- A text with a line feed for each end of a line, however that is written. Positions in messages about a file count
lines and columns of this text and not of the file. -/
def Text.unifyLines : Text → Text
  | [] => []
  | c :: rest =>
    if c = '\r' then
      match rest with
      | [] => [CodePoint.ofChar '\n']
      | d :: after =>
        if d = '\n' then CodePoint.ofChar '\n' :: unifyLines after
        else CodePoint.ofChar '\n' :: unifyLines (d :: after)
    else c :: unifyLines rest

namespace Settings

inductive Unreadable where
  | path (e : PathError)
  | bytes (e : DecodeError)
  | json (e : Json.ReadError)

def Unreadable.message (path : Text) : Unreadable → Text
  | .path e => e.message path
  | .bytes e => e.message
  | .json e => e.message

inductive FileError where
  | unreadable (e : Unreadable) (path : Text)
  | notObject (path : Text)
  /-- The defaults cannot be had. It is not the file that is at fault. -/
  | defaults (e : PathError)

def FileError.message : FileError → Text
  | .unreadable e path => "Failed to load configuration file (" ++ e.message path ++ "): " ++ path
  | .notObject path => "Configuration file must contain a JSON object: " ++ path
  | .defaults e => e.message []

/-- The JSON value that a file holds. The file must be UTF-8: a byte that is not is refused here, while names of files
may have any. -/
def readFile (host : Host) (path : Text) : Except Unreadable Json :=
  match host.read path with
  | .error e => .error (.path e)
  | .ok bytes =>
    match bytes.decode with
    | .error e => .error (.bytes e)
    | .ok text =>
      match Json.parse text.unifyLines with
      | .error e => .error (.json e)
      | .ok value => .ok value

def fileLog : Text := "incgraph.domain.config"

/-- A configuration with the settings among some members in place of its own. A setting keeps its place, so the order
of the result is that of the defaults. -/
def overlay (base : Json.Members) (members : Json.Members) : Json.Members :=
  members.foldl (fun config member =>
    if keys.contains member.1 then config.set member.1 member.2 else config) base

/-- What is logged about the members of a configuration file: a warning for each that is no setting, then that the
file was read. -/
def loadRecords (path : Text) (members : Json.Members) : List Journal.Record :=
  ((members.filter fun member => !keys.contains member.1).map fun member =>
    .warning fileLog ("Ignoring unknown configuration key '" ++ member.1 ++ "' in " ++ path)) ++
    [.debug fileLog ("Configuration loaded from " ++ path)]

/-- The defaults with what a file says in their place. There is no file if the path is empty. Values are not looked at
here, so a file may say anything about a setting. -/
def load (host : Host) (path : Text) : List Journal.Record × Except FileError Json.Members :=
  -- the defaults come first, and they need the working directory
  if host.stranded then ([], .error (.defaults Host.noWorkingDirectory))
  else if path.isEmpty then ([], .ok (defaults host))
  else
    match readFile host path with
    | .error e => ([], .error (.unreadable e path))
    | .ok (.obj members) => (loadRecords path members, .ok (overlay (defaults host) members))
    | .ok _ => ([], .error (.notObject path))

/-- The settings among the members of a configuration, in the order of the settings. -/
def known (config : Json.Members) : Json.Members :=
  keys.filterMap fun key => (config.get? key).map fun value => (key, value)

inductive SaveError where
  | file (e : PathError) (path : Text)
  | text (e : EncodeError)

def SaveError.message : SaveError → Text
  | .file e path => e.message path
  | .text e => e.message

/-- Saves the settings of a configuration. The directories above the file are made, and the file is opened
before anything is put into it: that is why a configuration without bytes still empties it. -/
def save (host : Host) (config : Json.Members) (path : Text) : Host × Except SaveError Unit :=
  if host.isAdrift path then (host, .error (.file Host.noWorkingDirectory path))
  else
    match host.makeDirectories (Path.parent (host.absolute path)) with
    | (made, .error (e, directory)) => (made, .error (.file e directory))
    | (made, .ok ()) =>
      match made.write path [] with
      | (refused, .error e) => (refused, .error (.file e path))
      | (opened, .ok ()) =>
        match (Json.render (.lines "    ") (.obj (known config))).encodeStrict with
        | .error e => (opened, .error (.text e))
        | .ok bytes =>
          match opened.write path bytes with
          | (cut, .error e) => (cut, .error (.file e path))
          | (done, .ok ()) => (done, .ok ())

/-- A configuration with the settings that others override. A null overrides nothing: it is what an option that was
not given stands for. -/
def merge (base overrides : Json.Members) : Json.Members :=
  (known overrides).foldl (fun config member =>
    match member.2 with
    | .null => config
    | value => config.set member.1 value) base

end Settings

end HeaderAtlas
