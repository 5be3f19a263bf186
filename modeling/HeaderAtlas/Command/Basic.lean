import HeaderAtlas.Command.Overrides
import HeaderAtlas.Command.Usage
import HeaderAtlas.Journal.Basic
import HeaderAtlas.Run
import HeaderAtlas.Settings.File
/-!
# The command

What the command does with its arguments: it reads them, sets up the journal, puts the configuration
together, and runs. All that can be seen of it is in the result: the machine as it is left, both
outputs, the log on the console and the exit code.
-/

set_option autoImplicit false

namespace HeaderAtlas

namespace Command

/-- All that can be seen of the command once it has ended. The log is kept apart from what else goes to standard
error, since it may go elsewhere. -/
structure Finish where
  host : Host
  /-- The exit code. -/
  code : Nat
  /-- What went to standard output. -/
  out : Bytes
  /-- What went to standard error, but for the log. -/
  err : Text
  /-- What the console shows of the log. -/
  log : List Journal.Shown

def codeOk : Nat := 0
def codeFailure : Nat := 1
/-- The exit code where the command was asked for something that it cannot be asked for. -/
def codeRefused : Nat := 2

/-- Why the command breaks off. These are faults that the command does not expect and so does not report as such; it
says what it knows and logs where it happened. -/
inductive Trouble where
  | journal (e : Journal.SetupError)
  | options (e : OverrideError)
  | text (e : EncodeError)
  | path (e : PathError)
  | run (p : Run.Problem)

def Trouble.message : Trouble → Text
  | .journal e => e.message
  | .options e => e.message
  | .text e => e.message
  | .path e => e.message []
  | .run p => p.message

/-- What the command has come to before its log is written. Records are gathered in order and are written at the end,
so all of what the command does can be read off a value. -/
structure Work where
  host : Host
  code : Nat
  out : Bytes := []
  err : Text := []
  records : List Journal.Record

def commandLog : Text := "incgraph.interface.cli.app"

def supervisorLog : Text := "incgraph.supervisor"

/-- Ends because of a fault that was not expected. The message goes to standard error, and the log keeps only that it
happened. -/
def breakOff (host : Host) (records : List Journal.Record) (t : Trouble) : Work where
  host := host
  code := codeFailure
  err := Journal.line ("Failure: " ++ t.message)
  records := records ++ [.debug supervisorLog "Unhandled exception:"]

/-- Ends because the configuration is not right. This is expected of users and leaves no record. -/
def refuse (host : Host) (records : List Journal.Record) (message : Text) : Work where
  host := host
  code := codeRefused
  err := Journal.line ("ERROR: " ++ message)
  records := records

/-- Shows the settings. Standard output is UTF-8, so a path that holds undecodable bytes cannot be shown. -/
def showSettings (host : Host) (records : List Journal.Record) (s : Settings) : Work :=
  match (Journal.line (Json.render (.lines "  ") (.obj s.members))).encodeStrict with
  | .error e => breakOff host records (.text e)
  | .ok bytes => { host := host, code := codeOk, out := bytes, records := records }

/-- Runs the tool on settings. They are handed over as a configuration and are checked again. The reader of standard
output stays to the end. -/
def runSettings (host : Host) (records : List Journal.Record) (s : Settings) : Work :=
  let outcome := Run.run host {} (.obj s.members)
  let all := records ++ outcome.records
  match outcome.result with
  | .ok _ => { host := outcome.host, code := codeOk, out := outcome.out, records := all }
  | .error p =>
    match p.kind? with
    | none => breakOff outcome.host all (.run p)
    | some kind =>
      { host := outcome.host
        code := if kind = .configuration then codeRefused else codeFailure
        err := Journal.line ("Failure: " ++ p.message)
        records := all }

/-- Checks the configuration and goes on with the settings. The check is lenient: what is not right is logged as a
warning. -/
def workWith (host : Host) (o : Options) (records : List Journal.Record) (config : Json.Members) :
    Work :=
  let checkup := Settings.check host false (.obj config)
  let checked := records ++ checkup.records
  match checkup.result with
  | .error (.path e) => breakOff host checked (.path e)
  | .error e => refuse host checked e.message
  | .ok (s, warnings) =>
    let warned := checked ++ warnings.map fun w =>
      .warning commandLog ("Configuration Constraint: " ++ w.message)
    if o.has .dumpConfig then showSettings host warned s else runSettings host warned s

/-- Reads the configuration file, puts the options above it, and goes on. The options are looked at only once the file
could be read. -/
def work (host : Host) (o : Options) : Work :=
  let begun : Journal.Record :=
    .debug commandLog "CLI execution initiated. Resolving configuration..."
  match Settings.load host (o.text .config) with
  | (loaded, .error (.defaults e)) => breakOff host (begun :: loaded) (.path e)
  | (loaded, .error e) => refuse host (begun :: loaded) e.message
  | (loaded, .ok base) =>
    match o.overrides with
    | .error e => breakOff host (begun :: loaded) (.options e)
    | .ok overrides => workWith host o (begun :: loaded) (Settings.merge base overrides)

/-- The journal that the options ask for. The console is always a part of it; a file is only where a path is given. -/
def journalSetup (o : Options) : Journal.Setup :=
  { level := .str (if o.has .debug then "DEBUG" else "INFO")
    file := .str (o.text .logFile) }

/-- The command with the options it was given. All that is logged is logged at one moment. -/
def perform (host : Host) (m : Journal.Moment) (o : Options) : Finish :=
  match ({} : Journal).configure host (journalSetup o) false with
  | (ready, journal, result) =>
    let done := match result with
      | .error e => breakOff ready [] (.journal e)
      | .ok () => work ready o
    match journal.logAll done.host m done.records with
    | (after, final) => ⟨after, done.code, done.out, final.notices ++ done.err, final.console⟩

/-- The bytes of a text that is known to have them, as help is. -/
def plainBytes (t : Text) : Bytes :=
  match t.encodeStrict with
  | .ok bytes => bytes
  | .error _ => []

/-- The command. Help and complaints about arguments are written before the journal is set up, so nothing of them is
logged. -/
def run (host : Host) (m : Journal.Moment) (arguments : List Text) : Finish :=
  match parse arguments with
  | .error .help => ⟨host, codeOk, plainBytes help, [], []⟩
  | .error (.error e) => ⟨host, codeRefused, [], e.text, []⟩
  | .ok o => perform host m o

end Command

end HeaderAtlas
