import HeaderAtlas.Json.Shown
import HeaderAtlas.Wildcard
/-!
# Values as wildcards

A configuration may give any value as a pattern. A text is a wildcard. A list is matched in the same way,
item by item, as if each item were a character; an item that is no single character matches nothing. Other
values cannot be matched. What is wrong with a pattern shows only when the pass meets it.
-/

set_option autoImplicit false

namespace HeaderAtlas

namespace Wildcard

inductive ValueError where
  | unsupported (e : Unsupported)
  | misfit (e : Json.Misfit)
  deriving DecidableEq, Repr

def isItem (c : CodePoint) : Json → Bool
  | .str [d] => c == d
  | _ => false

mutual

/-- Whether the items cover the whole name; `shown` is the pattern for the message about a `?` after a `*`. The passes
are those of texts, but an item may be something that no character is equal to. -/
def itemsCover (shown : Text) : List Json → Text → Except ValueError Bool
  | [], name => .ok name.isEmpty
  | item :: items, [] => .ok ((item :: items).all (isItem star))
  | item :: items, c :: name =>
    if isItem question item then itemsCover shown items name
    else if isItem star item then itemsCoverAfterStar shown items (c :: name)
    else if isItem c item then itemsCover shown items name
    else .ok false

/-- The same for what follows a `*`. Here an item is looked for in the name, and only a text can be. -/
def itemsCoverAfterStar (shown : Text) : List Json → Text → Except ValueError Bool
  | [], _ => .ok true
  | item :: items, name =>
    if isItem star item then itemsCoverAfterStar shown items name
    else if isItem question item then .error (.unsupported ⟨shown⟩)
    else
      match item with
      | .str [c] =>
        match name.dropWhile (· != c) with
        | [] => .ok false
        | _ :: rest => itemsCover shown items rest
      | .str _ => .ok false
      | other => .error (.misfit (.text other.kindName))

end

/-- Whether a file name matches the pattern that a value is. An object without members covers the empty name, as an
empty list does; one with members has no first item to begin with. -/
def isMatchOfValue (name : Text) : Json → Except ValueError Bool
  | .str pattern =>
    match isMatch name pattern with
    | .ok answer => .ok answer
    | .error e => .error (.unsupported e)
  | .arr items => itemsCover (Json.arr items).shown items name
  | .obj [] => .ok name.isEmpty
  | .obj (_ :: _) => .error (.misfit .first)
  | other => .error (.misfit (.length other.kindName))

end Wildcard

end HeaderAtlas
