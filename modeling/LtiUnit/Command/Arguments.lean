import LtiUnit.Command.Usage
import LtiUnit.Number.Numeral
import LtiUnit.Text

/-!
# LtiUnit.Command.Arguments

Reading command lines. The options of a command are described by a `Grammar`; reading takes one
argument at a time and collects what is given in `Progress`.

A value may follow its option as an argument of its own or be attached to it. An argument that
starts with a hyphen is taken as the value of the option before it only if that option `hyphens`.
A value is looked at when the next argument is understood, so an argument that is not understood is
reported before a bad value in front of it.
-/

namespace LtiUnit
namespace Command

inductive ValueKind where
  | text
  /-- A text that is not empty. -/
  | path
  | number
  | choice (names : List String)
  deriving DecidableEq, Repr

inductive Effect where
  | showHelp
  | showVersion
  /-- It may be given any number of times, and the times are counted. -/
  | count
  /-- It is given or not. -/
  | switch
  /-- It takes a value, which may start with a hyphen if `hyphens`. -/
  | value (kind : ValueKind) (hyphens : Bool)
  deriving DecidableEq, Repr

structure OptionSpec where
  /-- The name after two hyphens. -/
  long : String
  /-- The letter after one hyphen. -/
  short : Option Char
  effect : Effect
  deriving DecidableEq, Repr

structure Grammar where
  options : List OptionSpec
  /-- The one argument that is no option, by its name. -/
  positional : Option String
  /-- The options and arguments that have to be given. -/
  required : List String
  commands : List String
  deriving DecidableEq, Repr

namespace Grammar

def ofLong? (g : Grammar) (name : String) : Option OptionSpec :=
  g.options.find? fun o => o.long == name

def ofShort? (g : Grammar) (letter : Char) : Option OptionSpec :=
  g.options.find? fun o => o.short == some letter

end Grammar

/-- An option or argument whose value is not settled yet. -/
inductive Pending where
  | none
  /-- The value is still to come. -/
  | waiting (name : String) (kind : ValueKind) (hyphens : Bool)
  /-- The value is there but has not been looked at. -/
  | holding (name : String) (kind : ValueKind) (value : String)
  deriving DecidableEq, Repr

structure Progress where
  /-- Options and arguments with their values; switches have an empty one. -/
  found : List (String × String)
  /-- Options that are counted, once for each time. -/
  counted : List String
  pending : Pending
  /-- Whether options may no longer follow. -/
  trailing : Bool
  deriving DecidableEq, Repr

namespace Progress

def start : Progress := ⟨[], [], .none, false⟩

def checkValue (kind : ValueKind) (value : String) : Except UsageError Unit :=
  match kind with
  | .text => .ok ()
  | .path => if value.isEmpty then .error .badValue else .ok ()
  | .number => if (Number.ofSpelled? value).isSome then .ok () else .error .notANumber
  | .choice names => if names.contains value then .ok () else .error .badValue

/-- Note a value under its name, which must not have one yet. -/
def note (p : Progress) (name : String) (kind : ValueKind) (value : String) :
    Except UsageError Progress := do
  if (p.found.lookup name).isSome then throw .repeated
  checkValue kind value
  return { p with found := p.found ++ [(name, value)], pending := .none }

def settle (p : Progress) : Except UsageError Progress :=
  match p.pending with
  | .none => .ok p
  | .waiting .. => .error .missingValue
  | .holding name kind value => p.note name kind value

def act (p : Progress) (o : OptionSpec) : Except UsageError Progress := do
  let p ← p.settle
  match o.effect with
  | .showHelp => throw .help
  | .showVersion => throw .version
  | .count => return { p with counted := o.long :: p.counted }
  | .switch | .value .. => p.note o.long .text ""

/-- Take an option that takes a value, together with the value if that is attached. -/
def expect (p : Progress) (name : String) (kind : ValueKind) (hyphens : Bool)
    (attached : Option String) : Except UsageError Progress := do
  let p ← p.settle
  match attached with
  | some value => p.note name kind value
  | none => return { p with pending := .waiting name kind hyphens }

def cutValue : List Char → List Char × Option (List Char)
  | [] => ([], none)
  | '=' :: rest => ([], some rest)
  | c :: rest =>
    let (name, value) := cutValue rest
    (c :: name, value)

def takeLong (g : Grammar) (p : Progress) (cs : List Char) : Except UsageError Progress :=
  let (name, attached) := cutValue cs
  match g.ofLong? (String.ofList name) with
  | none => .error .unknownArgument
  | some o =>
    match o.effect, attached with
    | .value kind hyphens, _ => p.expect o.long kind hyphens (attached.map String.ofList)
    | _, some _ => .error .unwantedValue
    | _, none => p.act o

/-- Take the letters that follow one hyphen, up to one that takes a value. -/
def takeShort (g : Grammar) (p : Progress) : List Char → Except UsageError Progress
  | [] => .ok p
  | c :: rest =>
    match g.ofShort? c with
    | none => .error .unknownArgument
    | some o =>
      match o.effect with
      | .value kind hyphens =>
        let attached :=
          match rest with
          | [] => none
          | '=' :: value => some (String.ofList value)
          | value => some (String.ofList value)
        p.expect o.long kind hyphens attached
      | _ => (p.act o).bind fun p => takeShort g p rest

/-- Whether there is a value under a name, looked at or not. -/
def has (p : Progress) (name : String) : Bool :=
  (p.found.lookup name).isSome ||
    match p.pending with
    | .holding other _ _ => other == name
    | _ => false

def takePositional (g : Grammar) (p : Progress) (arg : String) : Except UsageError Progress :=
  match g.positional with
  | some name =>
    if p.has name then .error .unknownArgument
    else p.settle.map fun p => { p with pending := .holding name .path arg }
  | none =>
    if g.commands.isEmpty || (p.trailing && g.commands.contains arg) then .error .unknownArgument
    else .error .unknownCommand

def take (g : Grammar) (p : Progress) (arg : String) : Except UsageError Progress :=
  let hold : Except UsageError Progress :=
    match p.pending with
    | .waiting name kind _ => .ok { p with pending := .holding name kind arg }
    | _ => p.takePositional g arg
  if p.trailing then p.takePositional g arg
  else
    match p.pending, arg.toList with
    | .waiting _ _ true, _ => hold
    | _, ['-', '-'] => .ok { p with trailing := true }
    | _, '-' :: '-' :: cs => p.takeLong g cs
    | _, '-' :: c :: cs => p.takeShort g (c :: cs)
    | _, _ => hold

/-- Settle what is left, and check that everything required is given. -/
def finish (g : Grammar) (p : Progress) : Except UsageError Progress := do
  let p ← p.settle
  if g.required.all fun name => (p.found.lookup name).isSome then return p
  else throw .missingArgument

def isCommand (g : Grammar) (p : Progress) (arg : String) : Bool :=
  !p.trailing && !(p.pending matches .waiting ..) && g.commands.contains arg

end Progress

/-- Read arguments up to the first command, which is given back with what follows it. -/
def Grammar.readUpToCommand (g : Grammar) (p : Progress) :
    List String → Except UsageError (Progress × Option (String × List String))
  | [] => .ok (p, none)
  | arg :: rest =>
    if p.isCommand g arg then .ok (p, some (arg, rest))
    else (p.take g arg).bind fun p => g.readUpToCommand p rest

def Grammar.read (g : Grammar) (args : List String) : Except UsageError Progress := do
  let p ← args.foldlM (Progress.take g) .start
  p.finish g

end Command
end LtiUnit
