import HeaderAtlas.Disk.Write
import HeaderAtlas.Scan.Basic
import HeaderAtlas.Settings.Check
/-!
# Runs

A run checks a configuration, scans, and writes the document of the atlas to a file or to a stream. The document is
complete before anything is written, so whatever goes wrong up to then leaves no trace. What can still go wrong is the
writing itself: a file turns out to be on a full disk after it has been emptied, or a stream breaks before the end.
Then a part of the document has been written.

Not every failure is the tool's to report. Those of the configuration, of the files and of its own invariants have a
kind and are logged; the others are passed on to whoever asked for the run, unlogged. Which is which is a property of
the failure alone (`Problem.kind?`), so that the log and the exit code cannot disagree about it.
-/

set_option autoImplicit false

namespace HeaderAtlas

namespace Run

/-- What a run can be at odds with: what it was asked to do, the files it works on, or itself. A failure of the last
kind is a fault of the tool. -/
inductive ErrorKind where
  | configuration
  | io
  | invariant
  deriving DecidableEq, Repr

def ErrorKind.name : ErrorKind → Text
  | .configuration => "configuration"
  | .io => "io"
  | .invariant => "invariant"

/-- Why a run failed. -/
inductive Problem where
  /-- The configuration was refused. -/
  | settings (e : Settings.Refusal)
  /-- The scan did not come to its end. -/
  | scan (f : Scan.Failure)
  /-- The document has no bytes. -/
  | document (e : EncodeError)
  /-- The output file could not be written, or not to its end. -/
  | output (e : PathError) (path : Text)
  /-- The stream broke before the end of the document. -/
  | stream (f : Disk.Fault)

namespace Problem

/-- The kind of a problem that a run reports. One without a kind is left to the caller, such as a path that no file
can have. -/
def kind? : Problem → Option ErrorKind
  | .settings (.path _) => none
  | .settings _ => some .configuration
  | .scan (.listing (.fault _) _) => some .io
  | .scan (.listing _ _) => none
  | .scan (.reading _ _) => some .io
  | .scan (.pattern _) => some .configuration
  | .scan (.path _ _) => none
  | .scan (.misfit _) => none
  | .scan (.atlas (.encoding _)) => none
  | .scan (.atlas (.separator _)) => none
  | .scan (.atlas _) => some .invariant
  | .document _ => some .io
  | .output (.fault _) _ => some .io
  | .output (.bare _) _ => some .io
  | .output _ _ => none
  | .stream _ => none

/-- The file or directory that a problem is about. Only faults of the disk are about one; a path that is no path at
all is named in the message alone. -/
def path? : Problem → Option Text
  | .scan f => f.path?
  | .output (.fault _) path => some path
  | .output (.bare _) path => some path
  | _ => none

def message : Problem → Text
  | .settings e => e.message
  | .scan f => f.fullMessage
  | .document _ => "Failed to encode output document (surrogates not allowed)"
  | .output (.fault f) path => "Failed to open output file (" ++ f.reason ++ "): " ++ path
  | .output (.bare f) path => "Failed to open output file (" ++ f.reason ++ "): " ++ path
  | .output e path => e.message path
  | .stream f => PathError.message [] (.bare f)

end Problem

/-- What a run that went well reports. The counts are those of the whole atlas, the `stats` those of the scan. -/
structure Report where
  outputPath : Text
  nodeCount : Nat
  edgeCount : Nat
  stats : Scan.Stats
  deriving DecidableEq, Repr

/-- Where the document goes if no output file is named. -/
structure Stream where
  /-- Whether the stream takes text only. Standard output takes bytes. -/
  textOnly : Bool := false
  /-- How many bytes, or characters, it takes before it breaks, where it does. -/
  room : Option Nat := none
  /-- What it breaks with. That is its reader going away, unless it leads to a file on a full disk. -/
  fault : Disk.Fault := .brokenPipe
  deriving DecidableEq, Repr

/-- The bytes of what gets through to the reader of a stream. A stream that takes only text breaks between two
characters, any other one between two bytes. -/
def Stream.part (s : Stream) (document : Bytes) : Bytes :=
  match s.room with
  | none => document
  | some room => if s.textOnly then Text.key (document.toText.take room) else document.take room

/-- What a run leaves behind: the machine, the bytes of what went to the stream, and the log. -/
structure Outcome where
  host : Host
  out : Bytes
  records : List Journal.Record
  result : Except Problem Report

/-- What went to the stream, where that takes text and no bytes. Bytes are kept in either case, so that one outcome
serves both. -/
def Outcome.outText (o : Outcome) : Text := o.out.toText

/-- The part of the tool that carries out runs. -/
def runLog : Text := "incgraph.core.pipeline.engine"

/-- The first record of every run, written before the configuration is looked at. -/
def startRecord : Journal.Record := .info runLog "Dependency scan started."

/-- What is logged about a problem. A broken invariant is logged with its own severity, since no change of the
configuration mends it. -/
def Problem.records (p : Problem) : List Journal.Record :=
  match p.kind? with
  | none => []
  | some .invariant =>
    [⟨Journal.Level.critical, runLog, "Internal invariant violated: " ++ p.message⟩]
  | some _ => [.error runLog ("Scan failed: " ++ p.message)]

/-- The outcome of a run that failed before anything was written. The machine is the one that the run was given, and
nothing has gone to the stream. -/
def failed (host : Host) (records : List Journal.Record) (p : Problem) : Outcome :=
  ⟨host, [], records ++ p.records, .error p⟩

def Report.record (r : Report) : Journal.Record :=
  .info runLog ("Scan complete: " ++ Text.ofNat r.stats.files ++ " files, " ++
    Text.ofNat r.stats.parsedFiles ++ " parsed, " ++ Text.ofNat r.nodeCount ++ " nodes, " ++
    Text.ofNat r.edgeCount ++ " dependencies (" ++ Text.ofNat r.stats.includesDropped ++
    " includes dropped)")

/-- Writes a document where the settings want it: the machine afterwards, the bytes of what went to the
stream, and whether all of the document was written. -/
def deliver (host : Host) (stream : Stream) (path : Text) (document : Bytes) :
    Host × Bytes × Except Problem Unit :=
  if path.isEmpty then
    (host, stream.part document, if stream.part document = document then .ok () else .error (.stream stream.fault))
  else
    match host.write path document with
    | (after, .ok ()) => (after, [], .ok ())
    | (after, .error e) => (after, [], .error (.output e path))

/-- The run of settings that have been checked. It is total in all that the scan and the encoder can answer: each of
them ends the run with its own problem, and only what follows them touches the machine. -/
def runSettings (host : Host) (stream : Stream) (s : Settings) (before : List Journal.Record) : Outcome :=
  let scan := Scan.run host s.params Atlas.empty
  let records := before ++
    .debug runLog ("Scan parameters: " ++ s.params.text) :: scan.records
  match scan.result with
  | .error f => failed host records (.scan f)
  | .ok stats =>
    -- The whole document is made and encoded before the first byte of it is written.
    match (scan.atlas.dump s.style).encode with
    | .error e => failed host records (.document e)
    | .ok document =>
      match deliver host stream s.outputPath document with
      | (after, out, .error p) => ⟨after, out, records ++ p.records, .error p⟩
      | (after, out, .ok ()) =>
        let report : Report := ⟨s.outputPath, scan.atlas.size, scan.atlas.edgeCount, stats⟩
        ⟨after, out, records ++ [report.record], .ok report⟩

/-- Runs the tool on a configuration. Warnings are logged between what the check itself says and the scan, and never
stop a run. -/
def run (host : Host) (stream : Stream) (config : Json) : Outcome :=
  let checkup := Settings.check host false config
  let records := startRecord :: checkup.records
  match checkup.result with
  | .error e => failed host records (.settings e)
  | .ok (s, warnings) =>
    runSettings host stream s (records ++ warnings.map fun w =>
      .warning runLog ("Configuration Warning: " ++ w.message))

end Run

end HeaderAtlas
