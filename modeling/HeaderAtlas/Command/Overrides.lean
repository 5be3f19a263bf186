import HeaderAtlas.Command.Options
import HeaderAtlas.Number.Whole
import HeaderAtlas.Settings.Check
/-!
# What options override

The options of a command line as members of a configuration. An option that was not given overrides
nothing and is null.
-/

set_option autoImplicit false

namespace HeaderAtlas

namespace Command

/-- Why options cannot be used. -/
inductive OverrideError where
  /-- A list is to be split and nothing was given for it. -/
  | noList
  /-- No text was given for the indentation. -/
  | noIndent
  /-- The indentation is all digits and no number. -/
  | number (e : NotWhole)
  /-- There cannot be that many spaces. -/
  | tooWide
  /-- There is no room for that many spaces. -/
  | noRoom
  deriving DecidableEq, Repr

def OverrideError.message : OverrideError → Text
  | .noList => "'list' object has no attribute 'split'"
  | .noIndent => "'list' object has no attribute 'isdigit'"
  | .number e => e.message
  | .tooWide => "cannot fit 'int' into an index-sized integer"
  | .noRoom => []

def spaceLimit : Nat := Nat.pow 2 63

/-- There is no room for that many spaces. The bound stands for the memory of the machine, which the model has no
other notion of. -/
def roomLimit : Nat := Nat.pow 2 36

/-- Replaces a backslash and a `t` by a tab. -/
def unescapeTabs : Text → Text
  | [] => []
  | [c] => [c]
  | c :: d :: rest =>
    if c = '\\' ∧ d = 't' then CodePoint.ofChar '\t' :: unescapeTabs rest
    else c :: unescapeTabs (d :: rest)

/-- The unit of indentation that is meant: a number of spaces, or the text itself. -/
def indentUnit (given : Text) : Except OverrideError Text :=
  if given.isDigits then
    match Number.wholeOfText given with
    | .error e => .error (.number e)
    | .ok n =>
      if spaceLimit ≤ n.toNat then .error .tooWide
      else if roomLimit ≤ n.toNat then .error .noRoom
      else .ok (List.replicate n.toNat (CodePoint.ofChar ' '))
  else .ok (unescapeTabs given)

def listValue : Option Given → Except OverrideError Json
  | none => .ok .null
  | some .nothing => .error .noList
  | some (.text t) => .ok (Settings.textsValue (Settings.stripAll (t.splitOn ',')))

namespace Options

def valueOrNull (o : Options) (f : Field) : Json := ((o.value? f).map Given.value).getD .null

def valuesOrNull (o : Options) (f : Field) : Json :=
  match o.values f with
  | [] => .null
  | gs => .arr (gs.map Given.value)

/-- The directory to scan: the option's, or else the argument that belongs to no option. An empty text given to the
option does not count. -/
def scanDir (o : Options) : Json :=
  match o.value? .scanDir with
  | some (.text (c :: rest)) => .str (c :: rest)
  | _ => (o.position.map Json.str).getD .null

def indentMember (o : Options) : Except OverrideError Json.Members :=
  match o.value? .indent with
  | none => .ok []
  | some .nothing => .error .noIndent
  | some (.text t) => (indentUnit t).map fun unit => [("indent", .str unit)]

/-- The switches that set something, as members. A switch can only turn something off, so one that is not given says
nothing. -/
def switchMembers (o : Options) : Json.Members :=
  let reverse : Json.Members :=
    if o.has .noReverse then [("create_reverse_dependencies", .bool false)] else []
  let pretty : Json.Members := if o.has .compact then [("pretty_print", .bool false)] else []
  reverse ++ pretty

/-- The members of a configuration that the options override. Lists are read first: a fault in one of them is reported
before one in the indentation. -/
def overrides (o : Options) : Except OverrideError Json.Members := do
  let whitelist ← listValue (o.value? .whitelist)
  let blacklist ← listValue (o.value? .blacklist)
  let sources ← listValue (o.value? .sources)
  let skipped ← listValue (o.value? .skipped)
  let indent ← o.indentMember
  let fixed : Json.Members :=
    [ ("scan_dir", o.scanDir),
      ("project_root", o.valueOrNull .projectRoot),
      ("include_dirs", o.valuesOrNull .includeDir),
      ("root_dirs", o.valuesOrNull .rootDir),
      ("output_path", o.valueOrNull .output),
      ("output_format", o.valueOrNull .format),
      ("whitelist_wildcards", whitelist),
      ("blacklist_wildcards", blacklist),
      ("cxx_wildcards", sources),
      ("skip_root_dirs", skipped) ]
  return fixed ++ o.switchMembers ++ indent

end Options

end Command

end HeaderAtlas
