import HeaderAtlas.Text.Basic
/-!
# Log records

What the tool reports while it works. A record has a severity, the name of the part that reports, and a message. The
message is complete when the record is made: nothing is filled in later, so a record says the same whenever it comes
to be written.
-/

set_option autoImplicit false

namespace HeaderAtlas

namespace Journal

/-- A severity; the more severe, the greater. It is a number and not one of five cases, since a record may be made
with any severity at all. -/
abbrev Level := Int

namespace Level

def debug : Level := 10
def info : Level := 20
def warning : Level := 30
def error : Level := 40
/-- For what should not be possible: a broken invariant, not a broken input. -/
def critical : Level := 50

/-- The name of a severity. Those without a name of their own show their number. -/
def name (level : Level) : Text :=
  if level = 10 then "DEBUG"
  else if level = 20 then "INFO"
  else if level = 30 then "WARNING"
  else if level = 40 then "ERROR"
  else if level = 50 then "CRITICAL"
  else "Level " ++ Text.ofInt level

end Level

structure Record where
  level : Level
  logger : Text
  message : Text
  deriving DecidableEq, Repr

namespace Record

def debug (logger message : Text) : Record := ⟨Level.debug, logger, message⟩

def info (logger message : Text) : Record := ⟨Level.info, logger, message⟩

def warning (logger message : Text) : Record := ⟨Level.warning, logger, message⟩

def error (logger message : Text) : Record := ⟨Level.error, logger, message⟩

end Record

end Journal

end HeaderAtlas
