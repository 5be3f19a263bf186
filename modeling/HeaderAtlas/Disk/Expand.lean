import HeaderAtlas.Disk.Host
import HeaderAtlas.Text.Basic
/-!
# Paths as users write them

A user may write `~` for the home directory, `~name` for that of another user, and `$NAME` or `${NAME}` for an
environment variable. What is not set stays as it is written, and a value is not looked through for further
references. A path may also be left out: the root of a project is then the directory that holds a set of marker
names, looked for from a directory upwards. An environment variable overrides the search.
-/

set_option autoImplicit false

namespace HeaderAtlas

namespace Host

def homeVariable : Text := "HOME"

/-- The home directory that the name after a `~` means: without a name, that of the user who runs the tool,
for whom the environment has the first word. Where the machine keeps no accounts, nobody is asked about other
users; where it does, a name that is no name for it is refused. -/
def homeOf (host : Host) (name : Text) : Except PathError (Option Text) :=
  if name.isEmpty then
    match host.environment homeVariable with
    | .ok (some home) => .ok (some home)
    | _ => .ok ((host.accounts.bind (·.own)).map Bytes.toText)
  else
    match host.accounts with
    | none => .ok none
    | some accounts =>
      match pathBytes name with
      | .error e => .error e
      | .ok key => .ok ((accounts.homes.find? fun entry => entry.1 == key).map fun entry => entry.2.toText)

/-- Replaces a `~`, with the name of a user or without, that stands for the first component. A user who is
not known leaves the path as it is. -/
def expandHome (host : Host) (path : Text) : Except PathError Text :=
  match path with
  | [] => .ok []
  | c :: rest =>
    if c = '~' then
      match host.homeOf (rest.takeWhile (· != Path.slash)) with
      | .error e => .error e
      | .ok none => .ok path
      | .ok (some home) =>
        let t := Text.dropRightWhile (· == Path.slash) home ++ rest.dropWhile (· != Path.slash)
        .ok (if t.isEmpty then Path.root else t)
    else .ok path

/-- The variable that a text after `$` refers to, and the length of the reference: a word, or anything in braces but a
closing brace. A brace that is never closed begins no reference. -/
def reference? (t : Text) : Option (Text × Nat) :=
  match t with
  | [] => none
  | c :: rest =>
    if c.val = 0x7B then
      let name := rest.takeWhile (·.val != 0x7D)
      if name.length < rest.length then some (name, name.length + 2) else none
    else
      let name := t.takeWhile CodePoint.isWord
      if name.isEmpty then none else some (name, name.length)

/-- Replaces references to variables that are set. A reference to one that is not stays as it is written, dollar sign
and all. -/
def expandVariables (host : Host) : Text → Except EncodeError Text
  | [] => .ok []
  | c :: rest =>
    if c = '$' then
      match reference? rest with
      | none => (host.expandVariables rest).map (c :: ·)
      | some (name, n) =>
        match host.environment name with
        | .error e => .error e
        | .ok value =>
          (host.expandVariables (rest.drop n)).map ((value.getD (c :: rest.take n)) ++ ·)
    else (host.expandVariables rest).map (c :: ·)
termination_by t => t.length
decreasing_by
  · simp
  · simp only [List.length_drop, List.length_cons]
    omega
  · simp

/-- The absolute path that a user means: white space around it does not count, and nothing at all
means the fallback. -/
def normalizePath (host : Host) (path fallback : Text) : Except PathError Text :=
  let given := path.strip
  match host.expandHome (if given.isEmpty then fallback else given) with
  | .error e => .error e
  | .ok home =>
    match host.expandVariables home with
    | .error e => .error (.encoding e)
    | .ok found => .ok (host.absolute found)

/-! ## The root of a project -/

def rootVariable : Text := "INCGRAPH_ROOT"

/-- The names that mark a project root unless others are given. -/
def defaultMarkers : List Text := ["Jamroot", "libs"]

/-- Whether a directory holds every marker, of which there must be one. Without that, every directory would be marked
where none are given. -/
def hasMarkers (host : Host) (markers : List Text) (directory : Text) : Bool :=
  !markers.isEmpty && markers.all fun marker => host.isThere (Path.join directory marker)

/-- The first directory with all markers, from `current` upwards. The search ends where a parent is no shorter, which
is at the root. -/
def findMarked (host : Host) (markers : List Text) (current : Text) : Option Text :=
  if host.hasMarkers markers current then some current
  else if (Path.parent current).length < current.length then
    host.findMarked markers (Path.parent current)
  else none
termination_by current.length

/-- The project root as seen from the directory `start`, or from the working directory if that is empty. A variable
that is set but empty does not override the search. -/
def projectRoot (host : Host) (start : Text) (markers : List Text) : Option Text :=
  match host.environment rootVariable with
  | .ok (some (c :: rest)) => some (host.absolute (c :: rest))
  | _ => host.findMarked markers (host.absolute (if start.isEmpty then host.cwdText else start))

end Host

end HeaderAtlas
