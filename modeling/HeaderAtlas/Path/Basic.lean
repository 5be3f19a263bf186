import HeaderAtlas.Text.Printable
/-!
# Paths

Paths of names, with any separator, and paths of files. The rules here look at the text of a path alone and never at a
disk, so a `..` takes away the name before it even where that is a link to elsewhere. A path that begins with a slash
is absolute; exactly two slashes at the beginning are kept, any other number counts as one.
-/

set_option autoImplicit false

namespace HeaderAtlas

/-! ## Segments

A path of names is written with a separator between the names. Repeated separators count once and
those at the ends do not count, so a segment is never empty. -/

namespace Segments

/-- The non-empty parts of a text between separators. -/
def split (sep : CodePoint) (t : Text) : List Text := (Text.splitOn sep t).filter (!·.isEmpty)

structure BadSeparator where
  separator : Text
  deriving DecidableEq, Repr

def BadSeparator.message (e : BadSeparator) : Text :=
  "Separator must be a single character, got " ++ e.separator.quoted

def separator? : Text → Except BadSeparator CodePoint
  | [c] => .ok c
  | other => .error ⟨other⟩

/-- The segments of a path with any separator. The separator is checked whatever the path is, so a call with a bad one
fails even for the empty path. -/
def ofPath (path separator : Text) : Except BadSeparator (List Text) :=
  (separator? separator).map (split · path)

end Segments

namespace Path

def slash : CodePoint := CodePoint.ofChar '/'

def here : Text := [CodePoint.ofChar '.']

def up : Text := [CodePoint.ofChar '.', CodePoint.ofChar '.']

def root : Text := [slash]

def isAbsolute (p : Text) : Bool := p.head? == some slash

/-- The names in a path. Whether the path is absolute cannot be told from them. -/
def components (p : Text) : List Text := Segments.split slash p

/-! ## Joining and splitting -/

/-- The path `b` seen from the directory `a`, which counts for nothing if `b` is absolute. -/
def join (a b : Text) : Text :=
  if isAbsolute b then b
  else if a.isEmpty || a.getLast? == some slash then a ++ b
  else a ++ slash :: b

/-- The last component: what follows the last slash. It is empty if the path ends with a slash. -/
def base (p : Text) : Text := (p.reverse.takeWhile (· != slash)).reverse

/-- All up to the last component. Slashes at the end are dropped unless there is nothing else, so the parent of a file
in the root directory is the root. -/
def parent (p : Text) : Text :=
  let head := (p.reverse.dropWhile (· != slash)).reverse
  let short := Text.dropRightWhile (· == slash) head
  if short.isEmpty then head else short

/-! ## Normal forms -/

/-- Adds a component to a stack of components: `.` and empty ones vanish, `..` removes the last one.
A `..` with nothing to remove stays in a relative path and vanishes at the root. -/
def push (absolute : Bool) (stack : List Text) (component : Text) : List Text :=
  if component = [] ∨ component = here then stack
  else if component = up then
    match stack with
    | [] => if absolute then [] else [up]
    -- what is left of a relative path above its start cannot be taken away
    | top :: below => if top = up then up :: stack else below
  else component :: stack

def normalComponents (p : Text) : List Text :=
  ((Text.splitOn slash p).foldl (push (isAbsolute p)) []).reverse

/-- The slashes at the beginning of a normal path. Two have a meaning of their own on some systems, and three or more
do not. -/
def anchor (p : Text) : Text :=
  match (p.takeWhile (· == slash)).length with
  | 0 => []
  | 2 => [slash, slash]
  | _ => [slash]

/-- The shortest text that says the same path. A path that comes to nothing is the directory it is seen from. -/
def normalize (p : Text) : Text :=
  let t := anchor p ++ Text.join [slash] (normalComponents p)
  if t.isEmpty then here else t

def absolute (cwd p : Text) : Text := normalize (join cwd p)

def dropCommon : List Text → List Text → List Text × List Text
  | a :: as, b :: bs => if a = b then dropCommon as bs else (a :: as, b :: bs)
  | as, bs => (as, bs)

/-- The path of `p` as seen from the directory `start`. Both are made absolute first, so the result does not depend on
how they are written. -/
def relative (cwd p start : Text) : Text :=
  let (ups, downs) := dropCommon (components (absolute cwd start)) (components (absolute cwd p))
  match ups.map (fun _ => up) ++ downs with
  | [] => here
  | parts => Text.join [slash] parts

/-- Whether `inner` is the directory `outer` or lies beneath it. A slash is put behind `outer` before the two are
compared, so that `/ab` does not lie in `/a`. -/
def contains (cwd outer inner : Text) : Bool :=
  let o := absolute cwd outer
  let i := absolute cwd inner
  let above := if o.getLast? == some slash then o else o ++ [slash]
  o == i || above.isPrefixOf i

example : normalize "/a//./b/../c/" = Text.ofString "/a/c" := by decide
example : normalize "//a/../.." = Text.ofString "//" := by decide
example : normalize "///a" = Text.ofString "/a" := by decide
example : relative "/" "/a/b" "/a/c/d" = Text.ofString "../../b" := by decide

end Path

end HeaderAtlas
