import HeaderAtlas.Path.Basic
/-!
# Wildcards for file names

A pattern is matched in one pass and without going back. `?` stands for one character. A run of `*`
at the end stands for any rest; a run of `*` before a character skips to the first place where that
character stands. So `a*c` does not match `acbc`. What `*` before `?` should mean is not defined, and
such a pattern is refused.
-/

set_option autoImplicit false

namespace HeaderAtlas

namespace Wildcard

def star : CodePoint := CodePoint.ofChar '*'

def question : CodePoint := CodePoint.ofChar '?'

/-- A pattern in which `?` follows `*`. The whole pattern is kept for the message, also where a pass meets the fault
far behind its beginning. -/
structure Unsupported where
  pattern : Text
  deriving DecidableEq, Repr

def Unsupported.message (e : Unsupported) : Text :=
  "Incorrect filename pattern specified: " ++ e.pattern

/-- Whether a pattern can be matched. A run of `*` counts as one, and what matters is the last of them and what
follows it. -/
def isSupported (pattern : Text) : Bool := !Text.occursIn [star, question] pattern

def check (pattern : Text) : Except Unsupported Unit :=
  if isSupported pattern then .ok () else .error ⟨pattern⟩

def checkAll : List Text → Except Unsupported Unit
  | [] => .ok ()
  | pattern :: rest =>
    match check pattern with
    | .ok () => checkAll rest
    | .error e => .error e

mutual

/-- Whether the pattern covers the whole name; `none` if the pass meets `?` after `*`. An unsupported pattern gives an
answer all the same if the pass ends before it gets there. -/
def covers? : Text → Text → Option Bool
  | [], name => some name.isEmpty
  -- at the end of the name only stars may be left, and they stand for nothing
  | p :: pattern, [] => some ((p :: pattern).all (· == star))
  | p :: pattern, c :: name =>
    if p = question then covers? pattern name
    else if p = star then coversAfterStar? pattern (c :: name)
    else if p = c then covers? pattern name
    else some false

/-- The same for what follows a `*`. The first place where the next character stands is taken for good, which is what
makes one pass enough. -/
def coversAfterStar? : Text → Text → Option Bool
  | [], _ => some true
  | p :: pattern, name =>
    if p = star then coversAfterStar? pattern name
    else if p = question then none
    else
      match name.dropWhile (· != p) with
      | [] => some false
      | _ :: rest => covers? pattern rest

end

def isMatch (name pattern : Text) : Except Unsupported Bool :=
  match covers? pattern name with
  | some answer => .ok answer
  | none => .error ⟨pattern⟩

/-- Whether one of the patterns matches, as `test` tells of each. Patterns after the first that matches are not looked
at, so a fault in them goes unnoticed. -/
def anyMatch {α ε : Type} (test : α → Except ε Bool) : List α → Except ε Bool
  | [] => .ok false
  | pattern :: rest =>
    match test pattern with
    | .error e => .error e
    | .ok true => .ok true
    | .ok false => anyMatch test rest

def matchesAny (name : Text) (patterns : List Text) : Except Unsupported Bool :=
  anyMatch (isMatch name) patterns

end Wildcard

/-! ## Classes of files -/

namespace FileClass

/-- Whether something in the whitelist matches and nothing in the blacklist, as `test` tells. The blacklist is not
looked at unless the whitelist matches. -/
def passes {α ε : Type} (test : α → Except ε Bool) (whitelist blacklist : List α) : Except ε Bool :=
  match Wildcard.anyMatch test whitelist with
  | .ok true => (Wildcard.anyMatch test blacklist).map (!·)
  | other => other

def isCandidate (name : Text) (whitelist blacklist : List Text) :
    Except Wildcard.Unsupported Bool :=
  passes (Wildcard.isMatch name) whitelist blacklist

def includeDirectory : Text := "include"

/-- Whether a directory above the file with the given path is named `include`. The file's own name does not count. -/
def isHeaderPath (path : Text) : Bool :=
  (Path.components (Path.parent path)).contains includeDirectory

/-- A file is parsed if its name matches one of the patterns, or if a directory above it is named
`include`, where headers without an extension live. -/
def isParsed (path : Text) (patterns : List Text) : Except Wildcard.Unsupported Bool :=
  (Wildcard.matchesAny (Path.base path) patterns).map (· || isHeaderPath path)

end FileClass

example : Wildcard.covers? "a*c" "abc" = some true := by decide
example : Wildcard.covers? "a*c" "acbc" = some false := by decide
example : Wildcard.covers? "a*?" "abc" = none := by decide
example : Wildcard.covers? "a**" "a" = some true := by decide

end HeaderAtlas
