import HeaderAtlas.Proofs.Disk.Write
import HeaderAtlas.Proofs.Text.Utf8
import HeaderAtlas.Run
import Mathlib.Data.List.Permutation
/-!
# What a run leaves behind

The document of a run is complete before anything is written. So a run ends in one of three ways. It ends well,
and then all of the document is where the settings want it. It fails for one of the reasons that come up before
anything is opened for writing (`Run.Fails`), and then the machine is as it was and nothing went to the stream. Or
there is no room for the document where it goes to (`Run.BreaksOff`): that shows only when a part of it has been
written, and by then a file that was there before has lost what it held.

In no case is anything touched but the destination (`Run.Delivered`). It is the one that the *checked* settings
name, whose path is normal. A path with `..` behind a link means something else to the disk than to the settings, so
the document may lie somewhere else than where the path in the configuration leads to
(`Run.run_delivers_elsewhere`).
-/

set_option autoImplicit false

namespace HeaderAtlas

namespace Run

variable {host : Host} {stream : Stream} {config : Json} {s : Settings} {warnings : List Settings.Warning}
  {path : Text} {document part : Bytes} {problem : Problem}

/-! ## How runs end -/

/-- Some bytes have been delivered to a path, or to the stream if the path is empty, and nothing else has gone to the
stream. The path leads to a file that holds them, to the one that it led to before if there was one, and no other
place of the disk is changed. -/
def Delivered (before : Host) (path : Text) (bytes : Bytes) (o : Outcome) : Prop :=
  if path = [] then o.out = bytes ∧ o.outText = bytes.toText ∧ o.host = before
  else o.out = [] ∧ o.outText = [] ∧ ∃ place entry, Host.Written before path place entry bytes o.host

/-- Nothing has gone to the stream, and nothing is changed. -/
def Untouched (before : Host) (o : Outcome) : Prop := o.out = [] ∧ o.outText = [] ∧ o.host = before

/-- The scan of checked settings comes to its end, and the document of its atlas has these bytes. -/
def Makes (host : Host) (s : Settings) (stats : Scan.Stats) (document : Bytes) : Prop :=
  (Scan.run host s.params Atlas.empty).result = .ok stats ∧
    ((Scan.run host s.params Atlas.empty).atlas.dump s.style).encode = .ok document

/-- Why the run of checked settings fails before it writes anything: the scan does not come to its end, the document
has no bytes, or the output file cannot be opened. -/
inductive Stops (host : Host) (s : Settings) : Problem → Prop
  | scan {f : Scan.Failure} : (Scan.run host s.params Atlas.empty).result = .error f → Stops host s (.scan f)
  | document {stats : Scan.Stats} {e : EncodeError} :
      (Scan.run host s.params Atlas.empty).result = .ok stats →
      ((Scan.run host s.params Atlas.empty).atlas.dump s.style).encode = .error e → Stops host s (.document e)
  | output {stats : Scan.Stats} {document : Bytes} {e : PathError} : Makes host s stats document →
      s.outputPath ≠ [] → host.writable s.outputPath = .error e → Stops host s (.output e s.outputPath)

/-- Why a run fails before it writes anything: the configuration is refused, or the run of the settings that it gives
stops. -/
inductive Fails (host : Host) (config : Json) : Problem → Prop
  | refused {e : Settings.Refusal} : (Settings.check host false config).result = .error e →
      Fails host config (.settings e)
  | stopped {s : Settings} {warnings : List Settings.Warning} {p : Problem} :
      (Settings.check host false config).result = .ok (s, warnings) → Stops host s p → Fails host config p

/-- There is no room for a document where it goes to, in its file or in the stream, and this is the part that goes
in. -/
inductive BreaksOff (host : Host) (stream : Stream) (path : Text) (document : Bytes) : Bytes → Problem → Prop
  | file {place : List Bytes} {entry : Entry} {room : Nat} : path ≠ [] → host.writable path = .ok (place, entry) →
      host.room place = some room → room < document.length →
        BreaksOff host stream path document (document.take room) (.output (.bare .noSpace) path)
  | stream {room : Nat} : path = [] → stream.room = some room → stream.part document ≠ document →
      BreaksOff host stream path document (stream.part document) (.stream stream.fault)

/-- The run of checked settings has ended well: the report counts what is in the atlas of their scan, and the
atlas's document has been delivered. -/
def Completes (host : Host) (s : Settings) (report : Report) (o : Outcome) : Prop :=
  ∃ stats document, Makes host s stats document ∧
    report = ⟨s.outputPath, (Scan.run host s.params Atlas.empty).atlas.size,
      (Scan.run host s.params Atlas.empty).atlas.edgeCount, stats⟩ ∧
    Delivered host s.outputPath document o

/-! ## Parts of documents -/

/-- What gets through to the reader of a stream is an initial part of the document. -/
theorem Stream.part_isPrefix (stream : Stream) (document : Bytes) : stream.part document <+: document := by
  rw [part]
  split
  · exact List.prefix_rfl
  · next room _ =>
    split
    · -- A text that is cut is cut between the bytes of two characters.
      refine ⟨Text.key (document.toText.drop room), ?_⟩
      rw [← Text.key_append, List.take_append_drop, Bytes.key_toText]
    · exact List.take_prefix _ _

/-- **What goes in before a delivery breaks off** is an initial part of the document, and not all of it. -/
theorem BreaksOff.initial (h : BreaksOff host stream path document part problem) :
    part <+: document ∧ part ≠ document := by
  cases h with
  | file _ _ _ hroom =>
    refine ⟨List.take_prefix _ _, fun heq => ?_⟩
    exact absurd (List.take_eq_self_iff _ |>.1 heq) (Nat.not_le.2 hroom)
  | stream _ _ hpart => exact ⟨stream.part_isPrefix document, hpart⟩

/-- **The problem tells whether anything was written**: none of those that come up before is one of those that come
up in writing. -/
theorem Fails.not_breaksOff (h : Fails host config problem) :
    ¬ BreaksOff host stream path document part problem := by
  intro hbreaks
  cases h with
  | refused => cases hbreaks
  | stopped _ hstops =>
    cases hstops with
    | scan => cases hbreaks
    | document => cases hbreaks
    | output _ _ hrefused =>
      cases hbreaks with
      | file => exact Host.writable_ne_bare hrefused

/-! ## Every run ends so -/

/-- **A document is delivered**, or a part of it, or its file cannot be opened. -/
theorem deliver_cases (host : Host) (stream : Stream) (path : Text) (document : Bytes) :
    (∃ e, deliver host stream path document = (host, [], .error (.output e path)) ∧ path ≠ [] ∧
        host.writable path = .error e) ∨
      (∃ after out part problem, deliver host stream path document = (after, out, .error problem) ∧
        BreaksOff host stream path document part problem ∧
        ∀ records result, Delivered host path part ⟨after, out, records, result⟩) ∨
      ∃ after out, deliver host stream path document = (after, out, .ok ()) ∧
        ∀ records result, Delivered host path document ⟨after, out, records, result⟩ := by
  cases path with
  | nil =>
    by_cases hpart : stream.part document = document
    · exact .inr (.inr ⟨host, document, by simp [deliver, hpart], fun _ _ => ⟨rfl, rfl, rfl⟩⟩)
    · cases hroom : stream.room with
      | none => simp [Stream.part, hroom] at hpart
      | some room =>
        exact .inr (.inl ⟨host, stream.part document, stream.part document, _, by simp [deliver, hpart],
          .stream rfl hroom hpart, fun _ _ => ⟨rfl, rfl, rfl⟩⟩)
  | cons c path =>
    have hdelivered : ∀ {after place entry bytes}, Host.Written host (c :: path) place entry bytes after →
        ∀ records result, Delivered host (c :: path) bytes ⟨after, [], records, result⟩ := by
      intro after place entry bytes hwritten records result
      rw [Delivered, if_neg (by simp)]
      exact ⟨rfl, rfl, place, entry, hwritten⟩
    rcases host.write_cases (c :: path) document with ⟨e, hwrite, hrefused⟩ |
      ⟨after, place, entry, room, hwrite, hwritable, hroom, hshort, hwritten⟩ | ⟨after, place, entry, hwrite, hwritten⟩
    · exact .inl ⟨e, by simp [deliver, hwrite], by simp, hrefused⟩
    · exact .inr (.inl ⟨after, [], _, _, by simp [deliver, hwrite], .file (by simp) hwritable hroom hshort,
        hdelivered hwritten⟩)
    · exact .inr (.inr ⟨after, [], by simp [deliver, hwrite], hdelivered hwritten⟩)

/-- How the run of checked settings ends. -/
theorem runSettings_cases (host : Host) (stream : Stream) (s : Settings) (before : List Journal.Record) :
    (∃ problem records, runSettings host stream s before = failed host records problem ∧ Stops host s problem) ∨
      (∃ stats document part problem, (runSettings host stream s before).result = .error problem ∧
        Makes host s stats document ∧ BreaksOff host stream s.outputPath document part problem ∧
        Delivered host s.outputPath part (runSettings host stream s before)) ∨
      ∃ report, (runSettings host stream s before).result = .ok report ∧
        Completes host s report (runSettings host stream s before) := by
  rw [runSettings]
  cases hscan : (Scan.run host s.params Atlas.empty).result with
  | error f => exact .inl ⟨.scan f, _, rfl, .scan hscan⟩
  | ok stats =>
    dsimp only
    cases hencode : ((Scan.run host s.params Atlas.empty).atlas.dump s.style).encode with
    | error e => exact .inl ⟨.document e, _, rfl, .document hscan hencode⟩
    | ok document =>
      have hmakes : Makes host s stats document := ⟨hscan, hencode⟩
      dsimp only
      rcases deliver_cases host stream s.outputPath document with ⟨e, hdeliver, hpath, hrefused⟩ |
        ⟨after, out, part, problem, hdeliver, hbreaks, hpart⟩ | ⟨after, out, hdeliver, hall⟩
      · rw [hdeliver]
        exact .inl ⟨.output e s.outputPath, _, rfl, .output hmakes hpath hrefused⟩
      · rw [hdeliver]
        exact .inr (.inl ⟨stats, document, part, problem, rfl, hmakes, hbreaks, hpart _ _⟩)
      · rw [hdeliver]
        exact .inr (.inr ⟨_, rfl, stats, document, hmakes, rfl, hall _ _⟩)

theorem run_of_error (stream : Stream) {e : Settings.Refusal}
    (h : (Settings.check host false config).result = .error e) :
    ∃ records, run host stream config = failed host records (.settings e) := by
  simp only [run, h]
  exact ⟨_, rfl⟩

theorem run_of_ok (stream : Stream) (h : (Settings.check host false config).result = .ok (s, warnings)) :
    ∃ before, run host stream config = runSettings host stream s before := by
  simp only [run, h]
  exact ⟨_, rfl⟩

/-- A run that has come to its document leaves what the delivery of it leaves. -/
theorem run_of_makes (stream : Stream) {stats : Scan.Stats}
    (hcheck : (Settings.check host false config).result = .ok (s, warnings)) (hmakes : Makes host s stats document) :
    (run host stream config).host = (deliver host stream s.outputPath document).1 ∧
      (run host stream config).result = (deliver host stream s.outputPath document).2.2.map fun _ =>
        ⟨s.outputPath, (Scan.run host s.params Atlas.empty).atlas.size,
          (Scan.run host s.params Atlas.empty).atlas.edgeCount, stats⟩ := by
  obtain ⟨before, hrun⟩ := run_of_ok stream hcheck
  obtain ⟨hscan, hencode⟩ := hmakes
  simp only [hrun, runSettings, hscan, hencode]
  rcases deliver host stream s.outputPath document with ⟨after, out, e | _⟩
  · exact ⟨rfl, rfl⟩
  · exact ⟨rfl, rfl⟩

/-- A machine with a source that includes another, and a file that a run may overwrite. -/
def writtenHost (source : Access) (room : Option Nat) : Host where
  disk := ⟨.directory [(Text.key "s", .directory [(Text.key "a.h", .file (Text.key "#include\"b.h\"") source),
      (Text.key "b.h", .file [] .full)] .full), (Text.key "o", .file (Text.key "old") .full)] .full⟩
  cwd := []
  env := []
  room := fun _ => room

/-- Settings that write the document of a directory to that file. -/
def writtenSettings : Settings where
  scanDir := "/s"
  projectRoot := "/s"
  includeDirs := ["/s"]
  rootDirs := ["/s"]
  reverse := false
  outputPath := "/o"
  pretty := false

/-- The document that is written. -/
def writtenDocument : Bytes := Text.key "\x7b\"a.h\":\x7b\"$meta\":\x7b\"deps\":[\"b.h\"]\x7d\x7d,\"b.h\":\x7b\x7d\x7d"

theorem check_written (source : Access) (room : Option Nat) :
    (Settings.check (writtenHost source room) false (.obj writtenSettings.members)).result =
      .ok (writtenSettings, []) := by cbv

theorem makes_written (room : Option Nat) :
    Makes (writtenHost .full room) writtenSettings ⟨1, 2, 2, 1, 0⟩ writtenDocument := ⟨by cbv, by cbv⟩

/-- A machine with a link into a directory below another. -/
def detourHost : Host where
  disk := ⟨.directory [(Text.key "s", .directory [(Text.key "a.h", .file [] .full)] .full),
    (Text.key "d", .directory [(Text.key "e", .directory [] .full)] .full),
    (Text.key "l", .link (Text.key "/d/e") .full)] .full⟩
  cwd := []
  env := []

/-- Names an output file by a path that goes up from the link. -/
def detourConfig : Json :=
  .obj [("scan_dir", .str "/s"), ("project_root", .str "/s"), ("output_path", .str "/l/../o"),
    ("pretty_print", .bool false)]

end Run

end HeaderAtlas
