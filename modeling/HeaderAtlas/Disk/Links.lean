import HeaderAtlas.Disk.Host
/-!
# Paths without links

Two ways to a path with no links in it. Both are the tool's own: a look-up on the disk follows links too, but
it does not tell which path it came to.

The *canonical* path of a directory is for the directories that a user names. Any number of links is followed
on the way to it. A component that is missing or cannot be reached counts as a plain name. A link that leads
back to itself cannot be resolved: it stays as a plain path with the rest of the path joined to it.

A path that comes from a source file is *peeled*: it is resolved against a directory that is trusted and taken
as it is. The path is followed name by name; a name that is a link is replaced by its target before the walk
goes on, on whatever position it stands. `.` and `..` are applied to the path reached so far. At most forty
links are followed, as on the disk itself, so that a source file cannot send the tool round in circles.
-/

set_option autoImplicit false

namespace HeaderAtlas

namespace Host

/-! ## Canonical directories -/

/-- Links that were met on the way: those that are resolved, and those that are being resolved. Meeting one of the
latter again is how a circle is noticed. -/
abbrev SeenLinks := List (Text × Option Text)

/-- How far a path was followed: the path reached, and whether it was followed to its end. The links that were met are
handed on, so that none is resolved twice. -/
structure Trail where
  path : Text
  complete : Bool
  seen : SeenLinks

def firstComponent (t : Text) : Text × Text :=
  (t.takeWhile (· != Path.slash), (t.dropWhile (· != Path.slash)).drop 1)

theorem length_firstComponent_lt {t : Text} (h : t ≠ []) :
    (firstComponent t).2.length < t.length := by
  have hd := (List.dropWhile_sublist (· != Path.slash) (l := t)).length_le
  have ht := List.length_pos_iff.2 h
  simp only [firstComponent, List.length_drop]
  omega

/-- Follows the path `rest` from the canonical path `path`. The fuel bounds the depth of links inside
links. Most of what goes wrong on the way is passed over, since a component that cannot be looked at may as
well be a plain name; a link that is there and does not show its target ends the search, and so does a text
that is no path. The error comes with the path that it is about. -/
def follow (host : Host) (fuel : Nat) (path rest : Text) (seen : SeenLinks) :
    Except (PathError × Text) Trail :=
  if _h : rest = [] then .ok ⟨path, true, seen⟩
  else
    let name := (firstComponent rest).1
    if name = [] ∨ name = Path.here then host.follow fuel path (firstComponent rest).2 seen
    else if name = Path.up then
      host.follow fuel (Path.parent path) (firstComponent rest).2 seen
    else
      let step := Path.join path name
      match host.entry false step with
      | .error .zeroByte => .error (.zeroByte, step)
      | .error (.encoding e) => .error (.encoding e, step)
      | .ok (_, .link target access) =>
        match (seen.find? fun entry => entry.1 == step).map (·.2) with
        | some (some resolved) => host.follow fuel resolved (firstComponent rest).2 seen
        -- a link to itself, by however many others: it stays as it is
        | some none => .ok ⟨Path.join step (firstComponent rest).2, false, seen⟩
        | none =>
          if access.read = false then .error (.fault .denied, step)
          else
            match fuel with
            | 0 => .ok ⟨Path.join step (firstComponent rest).2, false, seen⟩
            | fuel + 1 =>
              let aim := target.toText
              let trail :=
                if Path.isAbsolute aim then host.follow fuel Path.root (aim.drop 1) ((step, none) :: seen)
                else host.follow fuel path aim ((step, none) :: seen)
              match trail with
              | .error e => .error e
              | .ok ⟨reached, false, later⟩ =>
                .ok ⟨Path.join reached (firstComponent rest).2, false, later⟩
              | .ok ⟨reached, true, later⟩ =>
                host.follow (fuel + 1) reached (firstComponent rest).2 ((step, some reached) :: later)
      | _ => host.follow fuel step (firstComponent rest).2 seen
termination_by (fuel, rest.length)
decreasing_by
  all_goals first
    | exact Prod.Lex.right _ (length_firstComponent_lt _h)
    | exact Prod.Lex.left _ _ (Nat.lt_succ_self _)

/-- The canonical path of a directory. A link is entered at most once for every way of writing the
directory it lies in, of which there is one per component of the path. -/
def canonical (host : Host) (path : Text) : Except (PathError × Text) Text :=
  if host.isAdrift path then .error (noWorkingDirectory, path)
  else
    let start := host.absolute path
    let fuel := (host.disk.root.linkCount + 1) * (start.length + 1)
    (host.follow fuel Path.root start []).map fun trail => host.absolute trail.path

/-! ## Peeling links beneath a trusted directory -/

def maxPeeled : Nat := 40

inductive Snag where
  /-- This link was one too many. -/
  | tooMany (link : Text)
  /-- This link does not show its target. -/
  | unreadable (link : Text) (f : Disk.Fault)
  deriving DecidableEq, Repr

def Snag.message : Snag → Text
  | .tooMany link => "Too many levels of symbolic links at '" ++ link ++ "'"
  | .unreadable link f =>
    "Cannot read symbolic link '" ++ link ++ "': " ++ PathError.message link (.fault f)

/-- Follows names from the path `current`, `links` of which may be links. -/
def peelFrom (host : Host) (links : Nat) (current : Text) : List Text → Except Snag Text
  | [] => .ok current
  | name :: rest =>
    if name = Path.here then host.peelFrom links current rest
    else if name = Path.up then host.peelFrom links (Path.parent current) rest
    else
      match host.linkTarget? (Path.join current name) with
      | none => host.peelFrom links (Path.join current name) rest
      | some found =>
        -- links are counted before their targets are read, so one too many is reported as such even if it is
        -- unreadable
        match links with
        | 0 => .error (.tooMany (Path.join current name))
        | links + 1 =>
          match found with
          | .error f => .error (.unreadable (Path.join current name) f)
          | .ok target =>
            host.peelFrom links (if Path.isAbsolute target then Path.root else current)
              (Path.components target ++ rest)
termination_by names => (links, names.length)

/-- Resolves a path against a trusted directory. The result need not be there. -/
def peel (host : Host) (base path : Text) : Except Snag Text :=
  host.peelFrom maxPeeled (if Path.isAbsolute path then Path.root else base) (Path.components path)

end Host

end HeaderAtlas
