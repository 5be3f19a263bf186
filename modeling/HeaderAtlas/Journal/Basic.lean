import HeaderAtlas.Journal.LineFormat
import HeaderAtlas.Journal.RollingFile
import HeaderAtlas.Json.Shown
import HeaderAtlas.Number.Whole
import HeaderAtlas.Text.Basic
/-!
# The journal

Where log records go. A journal is set up once and may be shut down and set up again; setting it up a
second time does nothing unless that is forced. While it is set up with a console or a file, a *handler*
puts every record that is severe enough into a queue, and a *listener* takes the records out of that queue
and writes them to its sink, in its own time. Before a listener is replaced or given up, it writes all that
still waits.

A sink is a console, a file or both. What cannot be written to one of them does not keep the record from the
other; the console then shows a report, which says which record was lost and where it was lost.
-/

set_option autoImplicit false

namespace HeaderAtlas

namespace Journal

/-! ## Setups -/

/-- Capital letters for small ones, as far as the names of levels need them: `a` to `z`, and the small letter `i`
without a dot. -/
def upperLetter (c : CodePoint) : CodePoint :=
  if 0x61 ≤ c.val ∧ c.val ≤ 0x7A then CodePoint.ofNat (c.val - 0x20)
  else if c.val = 0x131 then CodePoint.ofChar 'I'
  else c

/-- The level with the given name, in letters of either case and with blanks around it. -/
def Level.ofName? (given : Text) : Option Level :=
  let names : List (Text × Level) :=
    [("DEBUG", .debug), ("INFO", .info), ("WARNING", .warning), ("WARN", .warning),
      ("ERROR", .error), ("CRITICAL", .critical)]
  (names.find? fun entry => entry.1 = given.strip.map upperLetter).map (·.2)

/-- The level that a value asks for. What names no level stands for `info`: a mistake in the level is no reason to do
without a log. -/
def Level.ofValue : Json → Level
  | .str t => (Level.ofName? t).getD .info
  | _ => .info

/-- How a journal is to be set up, in the values that a configuration gives. Each value is looked at when
it is needed. An empty path means that there is no file. -/
structure Setup where
  level : Json := .str "INFO"
  console : Json := .bool true
  file : Json := .null
  maxBytes : Json := .int (2 * 1024 * 1024)
  backups : Json := .int 3
  consoleFormat : Json := .str "%(levelname)s | %(message)s"
  fileFormat : Json := .str "%(asctime)s | %(levelname)s | %(name)s | %(message)s"
  timeFormat : Json := .str "%Y-%m-%d %H:%M:%S"

/-- Why a journal could not be set up. A file that cannot be opened is not among the reasons unless its path is none:
the journal then does without the file. -/
inductive SetupError where
  | format (e : BadFormat)
  /-- The path of the file is no text. -/
  | notPath (kind : String)
  | size (e : NotWhole)
  | file (e : PathError) (path : Text)
  deriving DecidableEq, Repr

def SetupError.message : SetupError → Text
  | .format e => e.message
  | .notPath kind => (Json.Misfit.path kind).message
  | .size e => e.message
  | .file e path => e.message path

/-! ## Journals -/

/-- Where records are written, those below a level left out. -/
structure Sink where
  level : Level
  console : Option LineFormat
  file : Option (RollingFile × LineFormat)
  deriving DecidableEq, Repr

def Sink.isUsed (s : Sink) : Bool := s.console.isSome || s.file.isSome

/-- A record that waits to be written, with the moment it was made at. The line shows that moment and not the one at
which it comes to be written. -/
structure Pending where
  moment : Moment
  record : Record
  deriving DecidableEq, Repr

/-- What takes records out of a queue, which is given by its number, and writes them. A handler and a listener share a
queue and nothing else. -/
structure Listener where
  queue : Nat
  sink : Sink
  deriving DecidableEq, Repr

/-- The parts of a sink. A report names the one that lost a record. -/
inductive Part where
  | console
  | file
  deriving DecidableEq, Repr

/-- What the console shows: a record in the format of the sink, or a report that a part of the sink could not write a
record. -/
inductive Shown where
  | line (text : Text)
  | report (part : Part) (record : Record)
  deriving DecidableEq, Repr

end Journal

/-- The state of logging, with what it has written so far. -/
structure Journal where
  /-- Whether the journal is set up. -/
  configured : Bool := false
  /-- Records below this level are left out. -/
  level : Journal.Level := .warning
  /-- The handlers that are attached, each given by the number of the queue it puts records into. -/
  handlers : List Nat := []
  /-- What writes the records of a queue. -/
  listener : Option Journal.Listener := none
  /-- All queues that were ever made, by number, with what waits in them. -/
  queues : List (List Journal.Pending) := []
  /-- What the console has shown. -/
  console : List Journal.Shown := []
  /-- What has been said on standard error about the journal itself. -/
  notices : Text := []
  deriving DecidableEq, Repr

namespace Journal

def line (t : Text) : Text := t ++ [CodePoint.ofChar '\n']

/-! ## Writing records -/

namespace Shown

def reportHead : Text := Journal.line "--- Logging error ---"

/-- How a report ends: with the record that was lost. What stands between is a list of places in the tool, which
is not for the user and no part of the model. -/
def reportEnd (r : Record) : Text :=
  Journal.line ("Message: " ++ r.message.quoted) ++ Journal.line "Arguments: None"

def text : Shown → Text
  | .line t => Journal.line t
  | .report _ r => reportHead ++ reportEnd r

end Shown

/-- What the console shows of a record: its line, or a report where the format asks for something that no record has.
It is one of the two in any case, so no record passes the console unseen. -/
def consoleShown (console : Option LineFormat) (p : Pending) : List Shown :=
  match console with
  | none => []
  | some format =>
    match format.render p.moment p.record with
    | some t => [.line t]
    | none => [.report .console p.record]

/-- Writes a record to a file, and says what the console shows about that, which is nothing if all went well. -/
def writeFile (host : Host) (file : Option (RollingFile × LineFormat)) (p : Pending) : Host × List Shown :=
  match file with
  | none => (host, [])
  | some (file, format) =>
    match format.render p.moment p.record with
    | none => (host, [.report .file p.record])
    | some t =>
      match file.write host (line t) with
      | (after, true) => (after, [])
      | (after, false) => (after, [.report .file p.record])

/-- Writes a record to a sink, to the console first, and says what the console shows. Neither part knows how the other
fared. -/
def Sink.write (s : Sink) (host : Host) (p : Pending) : Host × List Shown :=
  if p.record.level < s.level then (host, [])
  else
    let (after, reported) := writeFile host s.file p
    (after, consoleShown s.console p ++ reported)

/-! ## Queues -/

def waiting (j : Journal) (queue : Nat) : List Pending := j.queues.getD queue []

def toWrite (j : Journal) : List Pending :=
  match j.listener with
  | none => []
  | some listener => j.waiting listener.queue

/-- Puts a record into the queue of every handler. While a journal is in order there is at most one handler, but
nothing here depends on that. -/
def put (j : Journal) (p : Pending) : Journal :=
  { j with queues := j.handlers.foldl (fun queues q => queues.modify q (· ++ [p])) j.queues }

/-- A turn of the listener: it writes the record that waits longest. -/
def turn (host : Host) (j : Journal) : Host × Journal :=
  match j.listener with
  | none => (host, j)
  | some listener =>
    match j.waiting listener.queue with
    | [] => (host, j)
    | p :: rest =>
      let (after, shown) := listener.sink.write host p
      (after, { j with queues := j.queues.set listener.queue rest, console := j.console ++ shown })

def turns (host : Host) (j : Journal) : Nat → Host × Journal
  | 0 => (host, j)
  | n + 1 =>
    let (after, next) := j.turn host
    next.turns after n

/-- The listener writes all that waits. That takes as many turns as there are records, for a turn adds none. -/
def catchUp (host : Host) (j : Journal) : Host × Journal := j.turns host j.toWrite.length

/-- Stops the listener, which writes all that waits first. Its queue stays: a handler may still be attached to it. -/
def stopListener (host : Host) (j : Journal) : Host × Journal :=
  let (after, quiet) := j.catchUp host
  (after, { quiet with listener := none })

/-- Attaches a handler with a new queue, and a listener that writes the records of that queue. A queue is never used
again, so nothing that an earlier listener left behind is written by a later one. -/
def attach (j : Journal) (sink : Sink) : Journal :=
  { j with
    handlers := j.handlers ++ [j.queues.length]
    listener := some ⟨j.queues.length, sink⟩
    queues := j.queues ++ [[]] }

/-! ## Setting up -/

def consoleOf (setup : Setup) : Except SetupError (Option LineFormat) :=
  if setup.console.truthy then
    match LineFormat.ofValue setup.consoleFormat .null with
    | .error e => .error (.format e)
    | .ok format => .ok (some format)
  else .ok none

/-- A file as part of a sink, and what is said on standard error if it cannot be opened. -/
structure OpenedFile where
  file : Option (RollingFile × LineFormat)
  notice : Text

/-- The path of a log file that is wanted; a value that is empty wants none. -/
def wantedFile (value : Json) : Except SetupError (Option Text) :=
  match value with
  | .str (c :: rest) => .ok (some (c :: rest))
  | other => if other.truthy then .error (.notPath other.kindName) else .ok none

/-- What is done about a log file that cannot be opened: it is done without, and a notice says why. A path that no
file can have is an error all the same. -/
def fileFailure (given : Text) : PathError × Text → Except SetupError OpenedFile
  | (.zeroByte, place) => .error (.file .zeroByte place)
  | (.encoding e, place) => .error (.file (.encoding e) place)
  | (e, place) =>
    .ok ⟨none, line ("WARNING: Cannot open log file '" ++ given ++ "': " ++ PathError.message place e)⟩

/-- Opens a log file. Its directory is made first and the sizes are looked at after that, so sizes that are no numbers
leave the directory behind. -/
def openFile (host : Host) (setup : Setup) (given : Text) (format : LineFormat) :
    Host × Except SetupError OpenedFile :=
  if host.isAdrift given then (host, fileFailure given (Host.noWorkingDirectory, given))
  else
    let path := host.absolute given
    match host.makeDirectories (Path.parent path) with
    | (made, .error e) => (made, fileFailure given e)
    | (made, .ok ()) =>
      -- The directory is made by now, whatever the sizes turn out to be.
      match setup.maxBytes.toWhole, setup.backups.toWhole with
      | .error e, _ => (made, .error (.size e))
      | _, .error e => (made, .error (.size e))
      | .ok maxBytes, .ok backups =>
        match RollingFile.openAt made path with
        | (refused, .error e) => (refused, fileFailure given (e, path))
        | (done, .ok ()) => (done, .ok ⟨some (⟨path, maxBytes, backups⟩, format), []⟩)

/-- The file that a setup asks for. Its format is looked at before its path. -/
def fileOf (host : Host) (setup : Setup) : Host × Except SetupError OpenedFile :=
  if setup.file.truthy then
    match LineFormat.ofValue setup.fileFormat setup.timeFormat with
    | .error e => (host, .error (.format e))
    | .ok format =>
      match wantedFile setup.file with
      | .error e => (host, .error e)
      | .ok none => (host, .ok ⟨none, []⟩)
      | .ok (some given) => openFile host setup given format
  else (host, .ok ⟨none, []⟩)

/-- Sets up a journal. The handler goes first and then the listener, before anything of the setup but its
level is looked at, so an error leaves the journal with the new level and without either. -/
def configure (host : Host) (j : Journal) (setup : Setup) (force : Bool) :
    Host × Journal × Except SetupError Unit :=
  if j.configured && !force then (host, j, .ok ())
  else
    let level := Level.ofValue setup.level
    -- The old listener is stopped before the new setup is looked at, so that a record in its queue is written under
    -- the setup it was logged under.
    let (quiet, bare) := stopListener host { j with level := level, handlers := [] }
    match consoleOf setup with
    | .error e => (quiet, bare, .error e)
    | .ok console =>
      match fileOf quiet setup with
      | (after, .error e) => (after, bare, .error e)
      | (after, .ok opened) =>
        let sink : Sink := ⟨level, console, opened.file⟩
        let ready := { bare with configured := true, notices := bare.notices ++ opened.notice }
        (after, if sink.isUsed then ready.attach sink else ready, .ok ())

/-- Shuts a journal down: the listener goes first and then the handler. The level stays. -/
def shutdown (host : Host) (j : Journal) : Host × Journal :=
  let (after, quiet) := j.stopListener host
  (after, { quiet with handlers := [], configured := false })

/-! ## Logging -/

inductive RecordError where
  | logger
  | level
  deriving DecidableEq, Repr

def RecordError.message : RecordError → Text
  | .logger => "A logger name must be a string"
  | .level => "level must be an integer"

/-- The record that values give. What is empty is no name, and any value can be the message. -/
def Record.ofValues (logger level message : Json) : Except RecordError Record := do
  let name : Text ← match logger with
    | .str t => .ok t
    | other => if other.truthy then .error .logger else .ok []
  let severity : Level ← match level with
    | .int n => .ok n
    | .bool b => .ok (b.toNat : Int)
    | _ => .error .level
  return ⟨severity, name, message.asText⟩

/-- A record without a name of its own goes under that of all. -/
def Record.named (r : Record) : Record :=
  if r.logger.isEmpty then { r with logger := "root" } else r

/-- Takes a record that was made at a moment: one that is severe enough is put into the queues. Without a
handler it is lost. -/
def take (j : Journal) (m : Moment) (r : Record) : Journal :=
  if r.level < j.level then j else j.put ⟨m, r.named⟩

/-- Takes a record, and lets the listener write all that waits. -/
def log (host : Host) (j : Journal) (m : Moment) (r : Record) : Host × Journal :=
  (j.take m r).catchUp host

def logAll (host : Host) (j : Journal) (m : Moment) : List Record → Host × Journal
  | [] => (host, j)
  | r :: rest =>
    let (after, next) := j.log host m r
    next.logAll after m rest

end Journal

end HeaderAtlas
