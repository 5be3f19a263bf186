import HeaderAtlas.Proofs.Disk.Write
import HeaderAtlas.Proofs.Json.RoundTrip
import HeaderAtlas.Proofs.Settings.Again
import HeaderAtlas.Proofs.Text.Scalar
import HeaderAtlas.Settings.File
/-!
# Saved configurations

A configuration that was saved is loaded as the defaults with what was saved in their place
(`Settings.load_save`). Between the two stand three codecs and a disk. The settings are written as JSON, the
JSON as UTF-8, and the bytes to a file; on the way back the ends of lines are unified before the JSON is
read. That changes nothing, since a written document holds no control characters but line feeds
(`Json.Plain.printable_renderAt`).
-/

set_option autoImplicit false

namespace HeaderAtlas

/-! ## Texts and bytes -/

/-- Bytes of a sequence that was read already are passed over. -/
theorem Bytes.decodeFrom_skip (skip : Nat) : ∀ (position : Nat) (b : Bytes), skip ≤ b.length →
    Bytes.decodeFrom position skip b = Bytes.decodeFrom (position + skip) 0 (b.drop skip) := by
  induction skip with
  | zero =>
    intro position b _
    rfl
  | succ skip ih =>
    intro position b h
    cases b with
    | nil => simp at h
    | cons a rest =>
      rw [Bytes.decodeFrom, ih (position + 1) rest (by simpa using h), List.drop_succ_cons]
      congr 1
      omega

/-- The sequence of a code point that is no surrogate is read as that code point. -/
theorem Bytes.decodeFrom_sequence {c : CodePoint} (hc : c.isSurrogate = false) {rest : Bytes} {t : Text}
    (h : ∀ position, Bytes.decodeFrom position 0 rest = .ok t) (position : Nat) :
    Bytes.decodeFrom position 0 (Utf8.sequence c.val ++ rest) = .ok (c :: t) := by
  have hscalar : c.val < 0xD800 ∨ 0xDFFF < c.val := by
    simp only [CodePoint.isSurrogate, Bool.and_eq_false_iff, decide_eq_false_iff_not] at hc
    omega
  obtain ⟨a, more, hseq, hstep⟩ := Utf8.step_sequence c.isLt hscalar
  have hof : CodePoint.ofNat c.val = c := Fin.ext (CodePoint.val_ofNat c.isLt)
  rw [hseq, List.cons_append, Bytes.decodeFrom, hstep rest]
  simp only [Nat.add_sub_cancel, hof]
  rw [Bytes.decodeFrom_skip more.length _ _ (by simp), List.drop_left, h]

/-- **What is written as UTF-8 is read as it was.** By induction on the text, one sequence of bytes for each of its
code points. -/
theorem Text.decode_encodeStrict {t : Text} {b : Bytes} (h : t.encodeStrict = .ok b) : b.decode = .ok t := by
  -- The induction is on the text; neither where it is written nor where it is read from matters.
  have hfault : ∀ position, t.encodeFault? CodePoint.bytes? position = none →
      ∀ start, Bytes.decodeFrom start 0 (t.bytesWith CodePoint.bytes?) = .ok t := by
    clear h
    induction t with
    | nil =>
      intro _ _ start
      rfl
    | cons c rest ih =>
      intro position hnone start
      rw [Text.encodeFault?] at hnone
      split at hnone
      · simp at hnone
      · next hsome =>
        have hc : c.isSurrogate = false := by
          by_contra hsurrogate
          simp [CodePoint.bytes?, hsurrogate] at hsome
        have hbytes : c.bytes? = some (Utf8.sequence c.val) := by simp [CodePoint.bytes?, hc]
        rw [Text.bytesWith, List.flatMap_cons, hbytes, Option.getD_some]
        exact Bytes.decodeFrom_sequence hc (ih (position + 1) hnone) start
  rw [Text.encodeStrict, Text.encodeWith] at h
  split at h
  · simp at h
  · next hnone =>
    rw [← Except.ok.inj h]
    exact hfault 0 hnone 0

/-- Where there are no carriage returns, the ends of lines are as they should be. -/
theorem Text.unifyLines_eq_self {t : Text} (h : CodePoint.ofChar '\r' ∉ t) : t.unifyLines = t := by
  induction t with
  | nil => rfl
  | cons c rest ih =>
    rw [List.mem_cons, not_or] at h
    rw [Text.unifyLines.eq_def]
    simp only [if_neg (Ne.symm h.1), ih h.2]

/-! ## No control characters in a document -/

namespace Json

/-- No control character but line feeds. Of all that unifying line ends could touch, only carriage returns matter, and
this excludes them with the rest. -/
def Printable (t : Text) : Prop := ∀ c ∈ t, c = CodePoint.ofChar '\n' ∨ 0x20 ≤ c.val

namespace Printable

variable {s t : Text}

instance (t : Text) : Decidable (Printable t) :=
  decidable_of_iff (t.all (fun c => c = CodePoint.ofChar '\n' ∨ 0x20 ≤ c.val) = true) (by simp [Printable])

theorem append (hs : Printable s) (ht : Printable t) : Printable (s ++ t) := by
  intro c hc
  obtain hc | hc := List.mem_append.1 hc
  · exact hs c hc
  · exact ht c hc

theorem no_return (h : Printable t) : CodePoint.ofChar '\r' ∉ t := by
  intro hmem
  exact absurd (h _ hmem) (by decide)

end Printable

/-- An escape is made of visible characters. -/
theorem printable_jsonEscaped (c : CodePoint) : Printable c.jsonEscaped := by
  have hhex : ∀ n < 0x20, Printable ("\\u" ++ Text.ofHex 4 n) := by decide
  unfold CodePoint.jsonEscaped
  split
  · decide
  split
  · decide
  split
  · decide
  split
  · decide
  split
  · decide
  split
  · decide
  split
  · decide
  split
  · next h => exact hhex c.val h
  · next h =>
    intro d hd
    rw [List.mem_singleton.1 hd]
    exact .inr (Nat.le_of_not_lt h)

theorem printable_quotedString (t : Text) : Printable (quotedString t) := by
  have hquote : Printable [CodePoint.ofChar '"'] := by decide
  have hbody : Printable (t.flatMap CodePoint.jsonEscaped) := by
    intro d hd
    obtain ⟨c, -, hd⟩ := List.mem_flatMap.1 hd
    exact printable_jsonEscaped c d hd
  exact hquote.append (hbody.append hquote)

theorem printable_ofInt (n : Int) : Printable (Text.ofInt n) := by
  have hdigits : ∀ n, Printable (Text.ofNat n) := by
    intro n c hc
    have hdigit := isAsciiDigit_ofNat hc
    simp only [CodePoint.isAsciiDigit, Bool.and_eq_true, decide_eq_true_eq] at hdigit
    omega
  cases n with
  | ofNat n => exact hdigits n
  | negSucc n => exact Printable.append (s := [CodePoint.ofChar '-']) (by decide) (hdigits (n + 1))

section

variable {layout : Layout} (hl : ∀ depth, Printable (layout.lineBreak depth)) (hcolon : Printable layout.colon)
include hl

/-- Between the parts of a value stand brackets, commas and line breaks. -/
theorem printable_renderItems {depth : Nat} {items : List Json}
    (h : ∀ item ∈ items, Printable (renderAt layout depth item)) : Printable (renderItems layout depth items) := by
  have hcomma : Printable "," := by decide
  induction items with
  | nil =>
    intro c hc
    exact absurd hc List.not_mem_nil
  | cons item items ih =>
    rw [renderItems]
    exact ((hcomma.append (hl depth)).append (h item List.mem_cons_self)).append
      (ih fun item' hitem' => h item' (List.mem_cons_of_mem _ hitem'))

include hcolon

theorem printable_renderMembers {depth : Nat} {members : Members}
    (h : ∀ m ∈ members, Printable (renderAt layout depth m.2)) :
    Printable (renderMembers layout depth members) := by
  have hcomma : Printable "," := by decide
  induction members with
  | nil =>
    intro c hc
    exact absurd hc List.not_mem_nil
  | cons m members ih =>
    obtain ⟨name, value⟩ := m
    rw [renderMembers]
    exact ((((hcomma.append (hl depth)).append (printable_quotedString name)).append hcolon).append
      (h (name, value) List.mem_cons_self)).append (ih fun m' hm' => h m' (List.mem_cons_of_mem _ hm'))

/-- **A written value has no control characters but line feeds.** Those of its texts are escaped. -/
theorem Plain.printable_renderAt {v : Json} (h : Plain v) (depth : Nat) : Printable (renderAt layout depth v) := by
  induction h generalizing depth with
  | null =>
    rw [renderAt]
    decide
  | bool b =>
    cases b with
    | false =>
      rw [renderAt]
      decide
    | true =>
      rw [renderAt]
      decide
  | @int n _ =>
    rw [renderAt]
    exact printable_ofInt n
  | str t =>
    rw [renderAt]
    exact printable_quotedString t
  | @arr items h ih =>
    have hopen : Printable "[" := by decide
    have hclose : Printable "]" := by decide
    cases items with
    | nil =>
      rw [renderAt]
      decide
    | cons item items =>
      -- A bracket, a line break, the items with their line breaks, and again a line break and a bracket.
      rw [renderAt]
      exact ((((hopen.append (hl _)).append (ih item List.mem_cons_self _)).append
        (printable_renderItems hl fun item' hitem' => ih item' (List.mem_cons_of_mem _ hitem') _)).append
        (hl _)).append hclose
  | @obj members _ h ih =>
    have hopen : Printable "\x7b" := by decide
    have hclose : Printable "\x7d" := by decide
    cases members with
    | nil =>
      rw [renderAt]
      decide
    | cons m members =>
      obtain ⟨name, value⟩ := m
      rw [renderAt]
      exact ((((((hopen.append (hl _)).append (printable_quotedString name)).append hcolon).append
        (ih (name, value) List.mem_cons_self _)).append
        (printable_renderMembers hl hcolon fun m' hm' => ih m' (List.mem_cons_of_mem _ hm') _)).append
        (hl _)).append hclose

end

end Json

/-- What is put into the entry can be got out of it again: it may be read, and it is no device. -/
def Entry.Keeps (e : Entry) : Prop :=
  e.access.read = true ∧ ∀ answer access, e ≠ .device answer access

/-! ## Making directories -/

namespace Host

/-- Two steps that change nothing but the disk change nothing but the disk. -/
theorem withDisk_eq_trans {host made after : Host} (hmade : made = host.withDisk made.disk)
    (hafter : after = made.withDisk after.disk) : after = host.withDisk after.disk := by
  rw [hafter, hmade]
  rfl

theorem frame_makeDirectory {host after : Host} {path : Text} (h : host.makeDirectory path = .ok after) :
    after = host.withDisk after.disk := by
  unfold makeDirectory at h
  split at h
  · simp at h
  · split at h
    · simp at h
    · simp at h
    · split at h
      · rw [← Except.ok.inj h]
        rfl
      · simp at h

/-- Whatever directories are made, nothing changes but the disk. So paths mean the same before and after. -/
theorem frame_makeChain (host : Host) (paths : List Text) :
    (host.makeChain paths).1 = host.withDisk (host.makeChain paths).1.disk := by
  induction paths with
  | nil => rfl
  | cons path above ih =>
    rw [makeChain.eq_def]
    dsimp -zeta only
    extract_lets start
    -- those above are made first, if at all
    have hstart : start.1 = host.withDisk start.1.disk := by
      simp only [start]
      split
      · rfl
      · split
        · rfl
        · split
          · next hchain =>
            rw [hchain] at ih
            exact ih
          · exact ih
    clear_value start
    obtain ⟨made, answer⟩ := start
    cases answer with
    | error e => exact hstart
    | ok _ =>
      simp only
      split
      · next done hdone => exact withDisk_eq_trans hstart (frame_makeDirectory hdone)
      · split
        · exact hstart
        · exact hstart

theorem frame_makeDirectories (host : Host) (path : Text) :
    (host.makeDirectories path).1 = host.withDisk (host.makeDirectories path).1.disk := by
  unfold makeDirectories
  split
  · rfl
  · exact frame_makeChain host _

/-- There is no writing to the empty path. -/
theorem ne_nil_of_write {host after : Host} {path : Text} {contents : Bytes}
    (h : host.write path contents = (after, .ok ())) : path ≠ [] := by
  rintro rfl
  have hempty : host.writable [] = .error (.fault .noEntry) := rfl
  rw [write, hempty] at h
  simp at h

/-- What was put where a path leads to is read by that path, if it is kept there. -/
theorem Written.read_of_keeps {host after : Host} {path : Text} {place : List Bytes} {entry : Entry} {contents : Bytes}
    (h : Written host path place entry contents after) (hkeeps : (entry.refill contents).Keeps) :
    after.read path = .ok contents := by
  rw [Host.read, h.there]
  obtain ⟨hread, hdevice⟩ := hkeeps
  cases h.offered.1 with
  | file _ access => simpa [readEntry, Entry.refill, Entry.access] using hread
  | pipe _ access => simpa [readEntry, Entry.refill, Entry.access] using hread
  | device answer access => exact absurd rfl (hdevice answer access)

end Host

namespace Settings

/-! ## Members in place of others -/

/-- Giving a member that is there its value leaves all others, and leaves it in its place. -/
theorem set_eq_map {base : Json.Members} {name : Text} (value : Json) (hdistinct : (base.map (·.1)).Nodup)
    (hmem : name ∈ base.map (·.1)) :
    base.set name value = base.map fun m => (m.1, if m.1 = name then value else m.2) := by
  induction base with
  | nil => simp at hmem
  | cons m base ih =>
    rw [List.map_cons, List.nodup_cons] at hdistinct
    by_cases hname : m.1 = name
    · -- the first one has the name, so that no other has
      have hothers : base.map (fun m => (m.1, if m.1 = name then value else m.2)) = base := by
        refine (List.map_congr_left fun m' hm' => ?_).trans (List.map_id base)
        have hne : m'.1 ≠ name := by
          intro heq
          exact hdistinct.1 (List.mem_map.2 ⟨m', hm', heq.trans hname.symm⟩)
        rw [if_neg hne]
        rfl
      rw [Json.Members.set, if_pos (by simpa using hname), List.map_cons, if_pos hname, hothers, hname]
    · have hrest : name ∈ base.map (·.1) := by
        obtain h | h := List.mem_cons.1 hmem
        · exact absurd h.symm hname
        · exact h
      rw [Json.Members.set, if_neg (by simpa using hname), List.map_cons, if_neg hname, ih hdistinct.2 hrest]

theorem get?_cons (m : Text × Json) (members : Json.Members) (key : Text) :
    Json.Members.get? key (m :: members) = if m.1 = key then some m.2 else members.get? key := by
  by_cases h : m.1 = key
  · simp [Json.Members.get?, h]
  · simp [Json.Members.get?, h]

theorem get?_eq_none {members : Json.Members} {key : Text} (h : key ∉ members.map (·.1)) :
    members.get? key = none := by
  rw [Json.Members.get?, List.find?_eq_none.2, Option.map_none]
  intro m hm
  have hne : m.1 ≠ key := by
    rintro rfl
    exact h (List.mem_map_of_mem hm)
  simpa using hne

theorem nodup_keys : keys.Nodup := by decide

/-- Members that are settings replace those of the same name, and nothing else happens. The defaults have all of them,
so none is added at the end. -/
theorem overlay_eq_map {members : Json.Members} (hdistinct : (members.map (·.1)).Nodup)
    (hkeys : ∀ m ∈ members, m.1 ∈ keys) : ∀ base : Json.Members, base.map (·.1) = keys →
    overlay base members = base.map fun m => (m.1, (members.get? m.1).getD m.2) := by
  induction members with
  | nil =>
    intro base _
    exact (List.map_id base).symm
  | cons m members ih =>
    intro base hbase
    rw [List.map_cons, List.nodup_cons] at hdistinct
    have hm : m.1 ∈ keys := hkeys m List.mem_cons_self
    have hset : base.set m.1 m.2 = base.map fun b => (b.1, if b.1 = m.1 then m.2 else b.2) :=
      set_eq_map m.2 (hbase ▸ nodup_keys) (hbase ▸ hm)
    have hnames : (base.set m.1 m.2).map (·.1) = keys := by
      rw [hset, List.map_map, ← hbase]
      rfl
    have hstep : overlay base (m :: members) = overlay (base.set m.1 m.2) members := by
      rw [overlay, List.foldl_cons, if_pos (List.contains_iff_mem.2 hm)]
      rfl
    rw [hstep, ih hdistinct.2 (fun m' hm' => hkeys m' (List.mem_cons_of_mem m hm')) _ hnames, hset, List.map_map]
    -- The names are distinct, so what the first member has replaced is replaced by no later one.
    refine List.map_congr_left fun b _ => ?_
    simp only [Function.comp_apply, get?_cons]
    by_cases hb : b.1 = m.1
    · rw [if_pos hb, if_pos hb.symm, get?_eq_none (hb ▸ hdistinct.1), Option.getD_none, Option.getD_some]
    · rw [if_neg hb, if_neg (Ne.symm hb)]

/-! ## The settings of a configuration -/

theorem map_fst_known (config : Json.Members) :
    (known config).map (·.1) = keys.filter fun key => (config.get? key).isSome := by
  rw [known, List.map_filterMap, ← List.filterMap_eq_filter]
  refine List.filterMap_congr fun key _ => ?_
  cases h : config.get? key with
  | none => simp [Option.guard, h]
  | some value => simp [Option.guard, h]

/-- What is saved of a configuration: its members that are settings, with their values. -/
theorem mem_known {config : Json.Members} {m : Text × Json} :
    m ∈ known config ↔ m.1 ∈ keys ∧ config.get? m.1 = some m.2 := by
  rw [known, List.mem_filterMap]
  constructor
  · rintro ⟨key, hkey, hm⟩
    obtain ⟨value, hvalue, rfl⟩ := Option.map_eq_some_iff.1 hm
    exact ⟨hkey, hvalue⟩
  · rintro ⟨hkey, hvalue⟩
    exact ⟨m.1, hkey, by rw [hvalue]; rfl⟩

theorem nodup_known (config : Json.Members) : ((known config).map (·.1)).Nodup := by
  rw [map_fst_known]
  exact nodup_keys.filter _

/-- A setting that is saved has the value it had. -/
theorem get?_known (config : Json.Members) {key : Text} (h : key ∈ keys) :
    (known config).get? key = config.get? key := by
  cases hvalue : config.get? key with
  | none =>
    refine get?_eq_none fun hmem => ?_
    obtain ⟨m, hm, rfl⟩ := List.mem_map.1 hmem
    rw [(mem_known.1 hm).2] at hvalue
    simp at hvalue
  | some value =>
    have hmem : (key, value) ∈ known config := mem_known.2 ⟨h, hvalue⟩
    cases hfound : (known config).find? fun m => m.1 == key with
    | none => simpa using List.find?_eq_none.1 hfound _ hmem
    | some m =>
      have hname : m.1 = key := by simpa using List.find?_some hfound
      have hm := mem_known.1 (List.mem_of_find?_eq_some hfound)
      rw [Json.Members.get?, hfound, Option.map_some, ← hm.2, hname, hvalue]

/-! ## Saving and loading -/

/-- What a configuration is saved as: its settings, in JSON. Nothing on the machine has changed but the disk. -/
theorem save_cases {host after : Host} {config : Json.Members} {path : Text}
    (h : save host config path = (after, .ok ())) :
    path ≠ [] ∧ after = host.withDisk after.disk ∧ ∃ opened bytes place entry,
      (Json.render (.lines "    ") (.obj (known config))).encodeStrict = .ok bytes ∧
        Host.Written opened path place entry bytes after := by
  have hmade := Host.frame_makeDirectories host (Path.parent (host.absolute path))
  unfold save at h
  split at h
  · simp at h
  · split at h
    · simp at h
    · next made hmake =>
      rw [hmake] at hmade
      split at h
      · simp at h
      · next opened hopen =>
        split at h
        · simp at h
        · next bytes hbytes =>
          split at h
          · simp at h
          · next done hdone =>
            obtain rfl := (Prod.mk.inj h).1
            obtain ⟨_, _, hopened⟩ := Host.written_of_write hopen
            obtain ⟨place, entry, hwritten⟩ := Host.written_of_write hdone
            have hframe := Host.withDisk_eq_trans (Host.withDisk_eq_trans hmade hopened.frame) hwritten.frame
            exact ⟨Host.ne_nil_of_write hdone, hframe, opened, bytes, place, entry, hbytes, hwritten⟩

/-- The settings of a configuration are read back from what they were written as. The bytes are decoded, line ends are
unified and the JSON is read, and each step undoes one of writing. -/
theorem readFile_of_read {host : Host} {config : Json.Members} {path : Text} {bytes : Bytes}
    (hplain : ∀ m ∈ known config, m.2.Plain)
    (hbytes : (Json.render (.lines "    ") (.obj (known config))).encodeStrict = .ok bytes)
    (hread : host.read path = .ok bytes) : readFile host path = .ok (.obj (known config)) := by
  have hvalue : (Json.obj (known config)).Plain := .obj (nodup_known config) hplain
  have hindent : Json.Layout.IsBlank (.lines "    ") :=
    List.all_eq_true.1 (show List.all ("    " : Text) Json.isSpace = true by decide)
  have hlines : ∀ depth, Json.Printable (Json.Layout.lineBreak (.lines "    ") depth) := by
    intro depth c hc
    obtain rfl | hc := List.mem_cons.1 hc
    · exact .inl rfl
    · obtain ⟨unit, hunit, hc⟩ := List.mem_flatten.1 hc
      rw [List.eq_of_mem_replicate hunit] at hc
      have hspaces : Json.Printable "    " := by decide
      exact hspaces c hc
  have hprintable : Json.Printable (Json.render (.lines "    ") (.obj (known config))) :=
    hvalue.printable_renderAt hlines (by decide) 0
  have hparse := @Json.parse_render _ hvalue _ hindent [] fun c hc => absurd hc List.not_mem_nil
  rw [List.append_nil] at hparse
  simp only [readFile, hread, Text.decode_encodeStrict hbytes, Text.unifyLines_eq_self hprintable.no_return, hparse]

/-- A file that holds the settings of a configuration gives the defaults with these in their place. No member is
ignored on the way. -/
theorem load_of_readFile {host : Host} {config : Json.Members} {path : Text} (hstranded : host.stranded = false)
    (hpath : path ≠ []) (hread : readFile host path = .ok (.obj (known config))) :
    load host path = ([.debug fileLog ("Configuration loaded from " ++ path)],
      .ok ((defaults host).map fun m => (m.1, (config.get? m.1).getD m.2))) := by
  have hkeys : ∀ m ∈ known config, m.1 ∈ keys := fun m hm => (mem_known.1 hm).1
  have hrecords : loadRecords path (known config) = [.debug fileLog ("Configuration loaded from " ++ path)] := by
    have hnone : (known config).filter (fun m => !keys.contains m.1) = [] := by
      rw [List.filter_eq_nil_iff]
      intro m hm
      simpa using hkeys m hm
    rw [loadRecords, hnone, List.map_nil, List.nil_append]
  have hoverlay := overlay_eq_map (nodup_known config) hkeys (defaults host) rfl
  rw [load, if_neg (by simp [hstranded]), if_neg (by simpa using hpath), hread]
  simp only [hrecords, hoverlay]
  refine congrArg (fun result => (_, Except.ok result)) (List.map_congr_left fun m hm => ?_)
  have hm : m.1 ∈ keys := List.mem_map_of_mem (f := (·.1)) hm
  rw [get?_known config hm]

/-- A configuration with a member that is no setting, with values of other kinds than settings have, and with
characters that are escaped and characters of several bytes. -/
def awkwardConfig : Json.Members :=
  [ ("colour", .str "red"),
    ("scan_dir", .obj [("", .arr [.null, .int (-12), .obj [], .bool true]), ("a\"\r\n", .arr [])]),
    ("indent", .str "\té😀\\") ]

/-- A machine with nothing on its disk but a device, which gives nothing. -/
def savingHost : Host where
  disk := ⟨.directory [(Text.key "null", .device [] .full)] .full⟩
  cwd := []
  env := []

theorem plain_awkward : ∀ m ∈ known awkwardConfig, m.2.Plain := by
  have hknown : known awkwardConfig = awkwardConfig.drop 1 := rfl
  have hitems : ∀ v ∈ [Json.null, .int (-12), .obj [], .bool true], v.Plain := by
    simp only [List.forall_mem_cons, List.not_mem_nil, false_implies, implies_true, and_true]
    exact ⟨.null, .int (by decide), .obj (by decide) (by simp), .bool true⟩
  rw [hknown, awkwardConfig, List.drop_succ_cons, List.drop_zero]
  simp only [List.forall_mem_cons, List.not_mem_nil, false_implies, implies_true, and_true]
  refine ⟨.obj (by decide) ?_, .str _⟩
  simp only [List.forall_mem_cons, List.not_mem_nil, false_implies, implies_true, and_true]
  exact ⟨.arr hitems, .arr (by simp)⟩

theorem save_awkward : (save savingHost awkwardConfig "/d/c").2 = .ok () := by cbv

theorem entry?_save_awkward :
    ((Host.entry? (save savingHost awkwardConfig "/d/c").1 true "/d/c").map fun e => e.access.read && e.isFile) =
      some true := by
  cbv

theorem save_device : (save savingHost awkwardConfig "/null").2 = .ok () := by cbv

theorem entry_save_device :
    (save savingHost awkwardConfig "/null").1.entry true "/null" = .ok ([Text.key "null"], .device [] .full) := by
  cbv

end Settings

end HeaderAtlas
