import HeaderAtlas.Command.Options
import HeaderAtlas.Text.Digit
/-!
# Reading a command line

First every argument is classified: an option, perhaps with a value attached, or something else. Long
options may be cut short as long as only one fits. Two dashes end the options. Then options take their
values, and one argument is left for the directory to scan.
-/

set_option autoImplicit false

namespace HeaderAtlas

namespace Command

/-- Why a command line is not understood. -/
inductive UsageError where
  /-- More than one option begins like that. -/
  | ambiguous (given : Text) (names : List Text)
  /-- An option that needs a value has none. -/
  | expectedOne (spec : OptionSpec)
  /-- A switch has a value attached. -/
  | ignored (spec : OptionSpec) (attached : Text)
  /-- There are arguments that nothing is known about. -/
  | unrecognized (given : List Text)
  deriving DecidableEq, Repr

def UsageError.message : UsageError → Text
  | .ambiguous given names =>
    "ambiguous option: " ++ given ++ " could match " ++ Text.join ", " names
  | .expectedOne spec => "argument " ++ spec.title ++ ": expected one argument"
  | .ignored spec attached =>
    "argument " ++ spec.title ++ ": ignored explicit argument " ++ attached.quoted
  | .unrecognized given => "unrecognized arguments: " ++ Text.join " " given

/-! ## Classifying arguments -/

inductive Token where
  /-- An argument that is no option. -/
  | plain (t : Text)
  /-- The two dashes that end the options. -/
  | endMark
  /-- An option; `short` says whether it was called by one letter. -/
  | option (spec : OptionSpec) (short : Bool) (attached : Option Text)
  /-- An argument that looks like an option. -/
  | unknown (t : Text)
  deriving DecidableEq, Repr

def dash : CodePoint := CodePoint.ofChar '-'

def endText : Text := [dash, dash]

def isLong (name : Text) : Bool := endText.isPrefixOf name

def isDecimal (t : Text) : Bool := t.all fun c => c.decimalValue?.isSome

/-- Whether an argument is a negative number, perhaps with a fraction. One line feed at the end does not count. No
option looks like a number, so such an argument is taken for none. -/
def isNegativeNumber (t : Text) : Bool :=
  match t with
  | [] => false
  | c :: rest =>
    let body : Text := if rest.getLast? = some (CodePoint.ofChar '\n') then rest.dropLast else rest
    c = dash &&
      match Text.cut '.' body with
      | none => !body.isEmpty && isDecimal body
      | some (whole, fraction) => isDecimal whole && !fraction.isEmpty && isDecimal fraction

/-- The options that an argument may be short for, by name. A long name may be cut short and have a value after an
equals sign; a value follows a letter at once. An option that fits by several names is there several times. -/
def candidates (t : Text) : List (OptionSpec × Text × Option Text) :=
  let named := table.flatMap fun spec => spec.names.map fun name => (spec, name)
  if isLong t then
    let (start, attached) : Text × Option Text :=
      match t.cut '=' with
      | none => (t, none)
      | some (before, after) => (before, some after)
    named.filterMap fun (spec, name) =>
      if start.isPrefixOf name then some (spec, name, attached) else none
  else
    named.filterMap fun (spec, name) =>
      if name = t.take 2 then some (spec, name, some (t.drop 2)) else none

def attachedOption? (t : Text) : Option (OptionSpec × Text × Text) :=
  match t.cut '=' with
  | none => none
  | some (name, value) => (lookup? name).map fun spec => (spec, name, value)

/-- Classifies an argument that begins with a dash and is longer than that. A name that is given in full is never
short for another. -/
def classifyDashed (t : Text) : Except UsageError Token :=
  match lookup? t, attachedOption? t with
  | some spec, _ => .ok (.option spec (!isLong t) none)
  | none, some (spec, name, value) => .ok (.option spec (!isLong name) (some value))
  | none, none =>
    match candidates t with
    | [(spec, name, attached)] => .ok (.option spec (!isLong name) attached)
    | [] =>
      if isNegativeNumber t || t.contains (CodePoint.ofChar ' ') then .ok (.plain t)
      else .ok (.unknown t)
    | several => .error (.ambiguous t (several.map fun entry => entry.2.1))

def classify (t : Text) : Except UsageError Token :=
  match t with
  | [] => .ok (.plain t)
  | [_] => .ok (.plain t)
  | c :: _ => if c = dash then classifyDashed t else .ok (.plain t)

/-- Classifies all arguments, up to the first that is ambiguous. After the end of the options there are none, so what
follows is plain whatever it looks like. -/
def classifyAll : List Text → Except UsageError (List Token)
  | [] => .ok []
  | t :: rest =>
    if t = endText then .ok (.endMark :: rest.map .plain)
    else
      match classify t with
      | .error e => .error e
      | .ok token => (classifyAll rest).map (token :: ·)

/-! ## Taking values -/

/-- What an argument with options says: switches, and perhaps an option with a value, which may have to
be taken from the next argument. -/
structure Use where
  switches : List Switch
  field : Option (OptionSpec × Field × Option Given)
  deriving DecidableEq, Repr

def useAlone (spec : OptionSpec) : Use :=
  match spec.role with
  | .switch s => ⟨[s], none⟩
  | .field f => ⟨[], some (spec, f, none)⟩

/-- The use of an option with something attached. What follows a switch of one letter is more such
options. -/
def useAttached (spec : OptionSpec) (short : Bool) : Text → Except UsageError Use
  | [] =>
    match spec.role with
    | .switch _ => .error (.ignored spec [])
    | .field f => .ok ⟨[], some (spec, f, some (.text []))⟩
  | c :: more =>
    match spec.role with
    | .field f => .ok ⟨[], some (spec, f, some (Given.ofAttached (c :: more)))⟩
    | .switch s =>
      match if short then lookup? [dash, c] else none with
      | none => .error (.ignored spec (c :: more))
      | some next =>
        let rest : Except UsageError Use := match more with
          | [] => .ok (useAlone next)
          | d :: after => useAttached next true (d :: after)
        rest.map fun use => ⟨s :: use.switches, use.field⟩

def useOf (spec : OptionSpec) (short : Bool) : Option Text → Except UsageError Use
  | none => .ok (useAlone spec)
  | some t => useAttached spec short t

/-- Why reading stops: help is asked for, or something is wrong. -/
inductive Stop where
  | help
  | error (e : UsageError)
  deriving DecidableEq, Repr

/-- Adds switches and a value to what has been read. Help comes before everything else that the same argument says. -/
def Options.take (o : Options) (switches : List Switch) (value : Option (Field × Given)) :
    Except Stop Options :=
  if switches.contains .help then .error .help
  else .ok { o with
    switches := o.switches ++ switches
    given := o.given ++ value.toList }

/-- Reads classified arguments. `free` says that no argument has been taken for the directory yet;
`extras` are those that nothing is known about. -/
def readTokens (o : Options) (free : Bool) (extras : List Text) :
    List Token → Except Stop (Options × List Text)
  | [] => .ok (o, extras)
  | .unknown t :: rest => readTokens o free (extras ++ [t]) rest
  | .plain t :: rest =>
    if free then
      let taken := { o with position := some t }
      -- the two dashes behind the directory have done their work and are no argument
      match rest with
      | .endMark :: after => readTokens taken false extras after
      | other => readTokens taken false extras other
    else readTokens o free (extras ++ [t]) rest
  | .endMark :: rest =>
    if free then
      match rest with
      | .plain t :: after => readTokens { o with position := some t } false extras after
      | other => readTokens o false extras other
    else readTokens o free (extras ++ [endText]) rest
  | .option spec short attached :: rest =>
    match useOf spec short attached with
    | .error e => .error (.error e)
    | .ok ⟨switches, none⟩ =>
      match o.take switches none with
      | .error stop => .error stop
      | .ok next => readTokens next free extras rest
    | .ok ⟨switches, some (_, field, some given)⟩ =>
      match o.take switches (some (field, given)) with
      | .error stop => .error stop
      | .ok next => readTokens next free extras rest
    | .ok ⟨switches, some (wanting, field, none)⟩ =>
      match rest with
      | .plain t :: after =>
        match o.take switches (some (field, .text t)) with
        | .error stop => .error stop
        | .ok next => readTokens next free extras after
      | _ => .error (.error (.expectedOne wanting))

/-- Reads a command line. Arguments that nothing is known about are complained about last, once all others are read,
so that they do not keep help from being shown. -/
def parse (arguments : List Text) : Except Stop Options :=
  match classifyAll arguments with
  | .error e => .error (.error e)
  | .ok tokens =>
    match readTokens {} true [] tokens with
    | .error stop => .error stop
    | .ok (o, []) => .ok o
    | .ok (_, extras) => .error (.error (.unrecognized extras))

end Command

end HeaderAtlas
