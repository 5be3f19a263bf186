import HeaderAtlas.Json.Basic
import HeaderAtlas.Text.Printable
/-!
# Options of the command

The options that the command knows, and what was given for them. An option is a switch, or it has a
value. When it is given more than once, the last value counts, or all of them.
-/

set_option autoImplicit false

namespace HeaderAtlas

namespace Command

inductive Switch where
  | help
  | noReverse
  | compact
  | dumpConfig
  | debug
  deriving DecidableEq, Repr

/-- The options with a value. The argument that belongs to no option is none of these, though it means the same as
`scanDir`. -/
inductive Field where
  | scanDir
  | includeDir
  | projectRoot
  | rootDir
  | whitelist
  | blacklist
  | sources
  | skipped
  | output
  | format
  | indent
  | config
  | logFile
  deriving DecidableEq, Repr

/-- What an option is for: to be set, or to be given a value. -/
inductive Role where
  | switch (s : Switch)
  | field (f : Field)
  deriving DecidableEq, Repr

structure OptionSpec where
  names : List Text
  role : Role
  deriving DecidableEq, Repr

/-- The names of an option in one, as messages call it: a user may have written any of them. -/
def OptionSpec.title (spec : OptionSpec) : Text := Text.join "/" spec.names

/-- The options of the command, in the order in which messages list those that an argument may be short for. -/
def table : List OptionSpec :=
  [ ⟨["-h", "--help"], .switch .help⟩,
    ⟨["-s", "--scan-dir"], .field .scanDir⟩,
    ⟨["-I", "--include"], .field .includeDir⟩,
    ⟨["--project-root"], .field .projectRoot⟩,
    ⟨["--root-dir"], .field .rootDir⟩,
    ⟨["--whitelist"], .field .whitelist⟩,
    ⟨["--blacklist"], .field .blacklist⟩,
    ⟨["--cxx"], .field .sources⟩,
    ⟨["--skip-dir"], .field .skipped⟩,
    ⟨["-o", "--output"], .field .output⟩,
    ⟨["-f", "--format"], .field .format⟩,
    ⟨["--no-rdeps"], .switch .noReverse⟩,
    ⟨["--compact"], .switch .compact⟩,
    ⟨["--indent"], .field .indent⟩,
    ⟨["--config"], .field .config⟩,
    ⟨["--dump-config"], .switch .dumpConfig⟩,
    ⟨["--debug"], .switch .debug⟩,
    ⟨["--log-file"], .field .logFile⟩ ]

/-- The option with exactly the given name. What an argument may be short for is settled elsewhere. -/
def lookup? (name : Text) : Option OptionSpec := table.find? fun spec => spec.names.contains name

/-- What an option was given. Two dashes are never a value: an option that has them attached is left
with nothing. -/
inductive Given where
  | text (t : Text)
  | nothing
  deriving DecidableEq, Repr

namespace Given

/-- The value that stands in one argument with the option's name. -/
def ofAttached (t : Text) : Given := if t = "--" then .nothing else .text t

/-- What the value is in a configuration. Nothing becomes an empty list there, and not an absent member, so a check
can still refuse it. -/
def value : Given → Json
  | .text t => .str t
  | .nothing => .arr []

def textOrEmpty : Given → Text
  | .text t => t
  | .nothing => []

end Given

/-- What a command line says. Everything is kept in order, since for some options the last value counts and for others
all of them do. -/
structure Options where
  /-- The argument that belongs to no option. -/
  position : Option Text := none
  /-- The values of options, in order. -/
  given : List (Field × Given) := []
  /-- The switches, in order. -/
  switches : List Switch := []
  deriving DecidableEq, Repr

namespace Options

def has (o : Options) (s : Switch) : Bool := o.switches.contains s

/-- All that was given for an option, in order. -/
def values (o : Options) (f : Field) : List Given :=
  o.given.filterMap fun entry => if entry.1 = f then some entry.2 else none

/-- The value that counts where only one can: the last. -/
def value? (o : Options) (f : Field) : Option Given := (o.values f).getLast?

def text (o : Options) (f : Field) : Text := ((o.value? f).map Given.textOrEmpty).getD []

end Options

end Command

end HeaderAtlas
