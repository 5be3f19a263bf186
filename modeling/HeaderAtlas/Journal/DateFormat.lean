import HeaderAtlas.Journal.Moment
import HeaderAtlas.Text.Capital
/-!
# Date formats

How a moment is written. A format is a text in which a percent sign and a letter stand for a part of
the moment. Between the two may stand signs that say how the part is filled up (`_` with spaces, `0`
with zeros, `-` not at all) and in which case it is written (`^` and `#`), a width, and one of the
letters `E` and `O`, which ask for another way of writing where there is one. What asks for nothing
that is known stands as it is.
-/

set_option autoImplicit false

namespace HeaderAtlas

namespace Journal

/-- What stands for one part of a moment in a format. -/
structure DateItem where
  /-- The last of the signs `_`, `-` and `0`. -/
  filling : Option CodePoint
  upper : Bool
  swapped : Bool
  width : Nat
  /-- `E` or `O`. -/
  variant : Option CodePoint
  /-- The letter, unless the format ends before it. -/
  letter : Option CodePoint
  /-- The item as it stands. -/
  source : Text

namespace DateItem

def isSign (c : CodePoint) : Bool := c ∈ Text.ofString "_-0^#"

def isBare (c : CodePoint) : Bool := c ∈ Text.ofString "aADF"

def refusesE (c : CodePoint) : Bool := c ∈ Text.ofString "bBhdeHIjklmMSUVgGWw"

def refusesO (c : CodePoint) : Bool := c ∈ Text.ofString "cxXY"

/-- Whether the letter can be written in the way that is asked for. Where it cannot be, the whole item stands as it
is. -/
def isAllowed (d : DateItem) (letter : CodePoint) : Bool :=
  match d.variant with
  | none => true
  | some v => !isBare letter && !(v = 'E' && refusesE letter) && !(v = 'O' && refusesO letter)

/-- The item at the start of a text that follows a percent sign, and what follows the item. A width beyond
`room` counts as that. -/
def read (room : Nat) (t : Text) : DateItem × Text :=
  let signs := t.takeWhile isSign
  let afterSigns := t.drop signs.length
  let digits := afterSigns.takeWhile CodePoint.isAsciiDigit
  let afterWidth := afterSigns.drop digits.length
  let (variant, afterVariant) : Option CodePoint × Text := match afterWidth with
    | [] => (none, [])
    | c :: rest => if c = 'E' ∨ c = 'O' then (some c, rest) else (none, c :: rest)
  let after := afterVariant.drop 1
  ({ filling := signs.reverse.find? fun c => c = '_' || c = '-' || c = '0'
     upper := signs.contains (CodePoint.ofChar '^')
     swapped := signs.contains (CodePoint.ofChar '#')
     width := min room (digits.foldl (fun n c => n * 10 + c.asciiDigitValue) 0)
     variant := variant
     letter := afterVariant.head?
     source := CodePoint.ofChar '%' :: t.take (t.length - after.length) },
    after)

def fillUp (width : Nat) (c : Char) (t : Text) : Text :=
  List.replicate (width - t.length) (CodePoint.ofChar c) ++ t

/-- A text, filled up to the width with spaces, or with zeros if that is asked for. -/
def text (d : DateItem) (t : Text) : Text :=
  fillUp d.width (if d.filling = some (CodePoint.ofChar '0') then '0' else ' ')
    (if d.upper then t.capital else t)

/-- A number of at least `least` digits. Without a sign it is filled up with zeros, unlike a text. -/
def number (d : DateItem) (least n : Nat) : Text :=
  let digits := Text.ofNat n
  if d.filling = some (CodePoint.ofChar '-') then fillUp d.width ' ' digits
  else if d.filling = some (CodePoint.ofChar '_') then fillUp (max least d.width) ' ' digits
  else fillUp (max least d.width) '0' digits

/-- A number that is filled up with spaces if nothing else is asked for. -/
def spacedNumber (d : DateItem) (least n : Nat) : Text :=
  number { d with filling := some (d.filling.getD (CodePoint.ofChar '_')) } least n

/-- A name, in capital letters if another case is asked for. -/
def name (d : DateItem) (t : Text) : Text := text { d with upper := d.upper || d.swapped } t

/-- A word of capital letters, in small ones if another case is asked for. -/
def word (d : DateItem) (t : Text) : Text :=
  if d.swapped then text { d with upper := false } t.lowerAscii else d.text t

end DateItem

def dayNames : List Text :=
  ["Sunday", "Monday", "Tuesday", "Wednesday", "Thursday", "Friday", "Saturday"]

def monthNames : List Text :=
  ["January", "February", "March", "April", "May", "June", "July", "August", "September", "October",
    "November", "December"]

namespace Moment

def two (n : Nat) : Text := DateItem.fillUp 2 '0' (Text.ofNat n)

def dayName (m : Moment) : Text := dayNames.getD m.weekday []

def monthName (m : Moment) : Text := monthNames.getD (m.date.month - 1) []

def shortTime (m : Moment) : Text := two m.hour ++ ":" ++ two m.minute

def time (m : Moment) : Text := m.shortTime ++ ":" ++ two m.second

/-- The date with the month first and two digits of the year. -/
def slashedDate (m : Moment) : Text :=
  two m.date.month ++ "/" ++ two m.date.day ++ "/" ++ two (m.date.year % 100)

def dashedDate (m : Moment) : Text :=
  DateItem.fillUp 4 '0' (Text.ofNat m.date.year) ++ "-" ++ two m.date.month ++ "-" ++ two m.date.day

def half (m : Moment) : Text := if m.hour < 12 then "AM" else "PM"

/-- The date and the time in one line, the day of the month with a space where it has one digit. -/
def full (m : Moment) : Text :=
  m.dayName.take 3 ++ " " ++ m.monthName.take 3 ++ " " ++
    DateItem.fillUp 2 ' ' (Text.ofNat m.date.day) ++ " " ++ m.time ++ " " ++ Text.ofNat m.date.year

/-- What a letter stands for. All moments are in Coordinated Universal Time, so the zone is always the same. -/
def part (m : Moment) (d : DateItem) (letter : Char) : Option Text :=
  match letter with
  | '%' => some (d.text "%")
  | 'n' => some (d.text "\n")
  | 't' => some (d.text "\t")
  | 'a' => some (d.name (m.dayName.take 3))
  | 'A' => some (d.name m.dayName)
  | 'b' => some (d.name (m.monthName.take 3))
  | 'h' => some (d.name (m.monthName.take 3))
  | 'B' => some (d.name m.monthName)
  | 'c' => some (d.text m.full)
  | 'C' => some (d.number 1 (m.date.year / 100))
  | 'd' => some (d.number 2 m.date.day)
  | 'D' => some (d.text m.slashedDate)
  | 'e' => some (d.spacedNumber 2 m.date.day)
  | 'F' => some (d.text m.dashedDate)
  | 'g' => some (d.number 2 (m.thursday.year % 100))
  | 'G' => some (d.number 1 m.thursday.year)
  | 'H' => some (d.number 2 m.hour)
  | 'I' => some (d.number 2 m.clockHour)
  | 'j' => some (d.number 3 (m.date.yearDay + 1))
  | 'k' => some (d.spacedNumber 2 m.hour)
  | 'l' => some (d.spacedNumber 2 m.clockHour)
  | 'm' => some (d.number 2 m.date.month)
  | 'M' => some (d.number 2 m.minute)
  | 'p' => some (d.word m.half)
  | 'P' => some (DateItem.word { d with swapped := true } m.half)
  | 'r' => some (d.text (two m.clockHour ++ ":" ++ two m.minute ++ ":" ++ two m.second ++ " " ++ m.half))
  | 'R' => some (d.text m.shortTime)
  | 's' => some (d.text (Text.ofNat m.seconds))
  | 'S' => some (d.number 2 m.second)
  | 'T' => some (d.text m.time)
  | 'u' => some (d.number 1 (m.sinceMonday + 1))
  | 'U' => some (d.number 2 ((m.date.yearDay + 7 - m.weekday) / 7))
  | 'V' => some (d.number 2 (m.thursday.yearDay / 7 + 1))
  | 'w' => some (d.number 1 m.weekday)
  | 'W' => some (d.number 2 ((m.date.yearDay + 7 - m.sinceMonday) / 7))
  | 'x' => some (d.text m.slashedDate)
  | 'X' => some (d.text m.time)
  | 'y' => some (d.number 2 (m.date.year % 100))
  | 'Y' => some (d.number 4 m.date.year)
  | 'z' => some (d.text "+" ++ d.number 4 0)
  | 'Z' => some (d.word "UTC")
  | _ => none

/-- What an item stands for. An item that asks for nothing that is known stands as it is, but filled up and
in the case it asks for. -/
def item (m : Moment) (d : DateItem) : Text :=
  let isMonth := d.letter.any fun letter => letter ∈ Text.ofString "bBh"
  let known : Option Text := d.letter.bind fun letter =>
    if d.isAllowed letter then m.part d (Char.ofNat letter.val) else none
  known.getD (if isMonth then d.name d.source else d.text d.source)

/-- Writes a moment into what is left of a format. Every step uses up some of it, so its length is enough
fuel. No item is filled up beyond `room`. -/
def fillFormat (m : Moment) (room : Nat) : Nat → Text → Text
  | _, [] => []
  | 0, _ :: _ => []
  | fuel + 1, c :: rest =>
    if c = '%' then
      let (d, after) := DateItem.read room rest
      m.item d ++ m.fillFormat room fuel after
    else c :: m.fillFormat room fuel rest

/-- The room for a moment that is written in a format of the given length. It is doubled, from 1024 on, until it is
256 times that length; a moment that does not fit by then is taken to be an empty text. -/
def roomFor (length : Nat) : Nat := Nat.pow 2 (max 10 ((256 * length - 1).log2 + 1))

/-- A moment in a format. There is nothing if the room is too small, and no text at all if there is a
zero character in the format. -/
def render (m : Moment) (format : Text) : Option Text :=
  if format.contains (CodePoint.ofNat 0) then none
  else
    let room := roomFor format.length
    let t := m.fillFormat room format.length format
    some (if t.length < room then t else [])

end Moment

example : Moment.render ⟨951868799⟩ "%F %T %j" = some (Text.ofString "2000-02-29 23:59:59 060") := by
  decide +kernel

end Journal

end HeaderAtlas
