import HeaderAtlas.Command.Basic
import HeaderAtlas.Disk.Write
import Std.Time.DateTime.Timestamp
/-!
# The command line

The outermost layer. It gathers what the command may see of the machine, runs the command, and carries
out what that did. Which files there are comes from standard input, one path on each line, as tools that
list files print them. So the command sees what it is shown and nothing else.
-/

set_option autoImplicit false

namespace HeaderAtlas

namespace Machine

def bytesOf (s : String) : Bytes := s.toUTF8.toList

def arrayOf (bytes : Bytes) : ByteArray := ⟨bytes.toArray⟩

/-- The string that is closest to a text. Code points that are no characters are lost, so nothing but what goes to the
system or to a user is made into a string. -/
def stringOf (t : Text) : String := String.ofList (t.map fun c => Char.ofNat c.val)

/-- The bytes of a text that is shown to a user. Where the text has none, something close to it is better than
nothing. -/
def shownBytes (t : Text) : Bytes :=
  match t.encode with
  | .ok bytes => bytes
  | .error _ => bytesOf (stringOf t)

/-- The variables that a text refers to. Only those are asked for, so the command sees no more of the environment than
it would look up. -/
def references : Text → List Text
  | [] => []
  | c :: rest =>
    let here := if c = '$' then ((Host.reference? rest).map (·.1)).toList else []
    here ++ references rest

def environment : List Text → IO (List (Bytes × Bytes))
  | [] => return []
  | name :: rest => do
    let others ← environment rest
    match ← IO.getEnv (stringOf name) with
    | none => return others
    | some value => return (name.key, bytesOf value) :: others

/-- What there is at a path. A file that may not be read is there all the same, and the error tells it from a
directory. -/
def entryAt (path : String) : IO (Option Entry) := do
  try
    return some (.file (← IO.FS.readBinFile path).toList .full)
  catch e =>
    match e with
    | .permissionDenied .. => return some (.file [] .none)
    | .inappropriateType .. => return some (.directory [] .full)
    | _ => return none

/-- Adds what there is at a path. If the path leads somewhere else, that is a link, and what it leads to is added at
its own place unless it is there already. -/
def addPath (cwd : Text) (disk : Disk) (path : String) : IO Disk := do
  match ← entryAt path with
  | none => return disk
  | some entry =>
    let place := Disk.pathNames (Path.absolute cwd path).key
    let real := bytesOf (toString (← IO.FS.realPath path))
    let goal := Disk.pathNames real
    let planted := match disk.at? goal with
      | some _ => disk.root
      | none => Entry.plant entry goal disk.root
    return ⟨if goal = place then planted else Entry.plant (.link real .full) place planted⟩

def addPaths (cwd : Text) (disk : Disk) : List String → IO Disk
  | [] => return disk
  | path :: rest => do addPaths cwd (← addPath cwd disk path) rest

def linesOf (contents : String) : List String := (contents.splitOn "\n").filter (· != "")

/-- What the command may see: the listed files, the files that its options name, and the variables that
its options or its configuration refer to. -/
def gather (o : Command.Options) (arguments : List Text) : IO Host := do
  let cwd := Text.ofString (toString (← IO.currentDir))
  let place := Disk.pathNames cwd.key
  let config := stringOf (o.text .config)
  let named := [config, stringOf (o.text .logFile), stringOf (o.text .output)].filter (· != "")
  let listed := linesOf (← (← IO.getStdin).readToEnd)
  let start : Disk := ⟨Entry.plant (.directory [] .full) place Disk.empty.root⟩
  let disk ← addPaths cwd start (listed ++ named)
  -- The configuration is read before the environment: which variables matter depends on what stands in it.
  let bare : Host := { disk := disk, cwd := place, env := [] }
  let configText := match bare.read (o.text .config) with
    | .ok bytes => bytes.toText
    | .error _ => []
  let names := Host.homeVariable :: Host.rootVariable :: (arguments ++ [configText]).flatMap references
  return { disk := disk, cwd := place, env := ← environment names }

/-- Writes the files that have changed. The command itself changes only its own copy of the disk. -/
def carryOut : List (List Bytes × Bytes) → IO Unit
  | [] => return
  | (place, contents) :: rest => do
    let path := Host.placeText place
    IO.FS.createDirAll (stringOf (Path.parent path))
    IO.FS.writeBinFile (stringOf path) (arrayOf contents)
    carryOut rest

def now : IO Journal.Moment := do
  return ⟨(← Std.Time.Timestamp.now).toSecondsSinceUnixEpoch.val.toNat⟩

/-- Shows what the command has to say and gives its exit code. The log comes before the document, which may
be long. -/
def present (finish : Command.Finish) : IO UInt32 := do
  (← IO.getStderr).write (arrayOf (shownBytes (finish.err ++ finish.log.flatMap Journal.Shown.text)))
  (← IO.getStdout).write (arrayOf finish.out)
  return finish.code.toUInt32

end Machine

end HeaderAtlas

open HeaderAtlas in
/-- Runs the command on its arguments. -/
def main (args : List String) : IO UInt32 := do
  let arguments := args.map Text.ofString
  match Command.parse arguments with
  | .error _ => Machine.present (Command.run { disk := .empty, cwd := [], env := [] } ⟨0⟩ arguments)
  | .ok o =>
    let host ← Machine.gather o arguments
    let finish := Command.run host (← Machine.now) arguments
    Machine.carryOut (Disk.changes host.disk finish.host.disk)
    Machine.present finish
