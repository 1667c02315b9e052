import LtiUnit.Command.Arguments
import LtiUnit.Files.Path

/-!
# LtiUnit.Command.Line

The command lines of the tool: which options there are, and what a command line asks for.
-/

namespace LtiUnit
namespace Command

inductive Emit where
  | artifact | source | descriptor
  deriving DecidableEq, Repr

namespace Emit

def name : Emit → String
  | .artifact => "artifact"
  | .source => "source"
  | .descriptor => "descriptor"

def all : List Emit := [.artifact, .source, .descriptor]

end Emit

structure BuildOptions where
  output : Path
  dt : Option Float
  x0 : Option String
  u0 : Option String
  runtimeDirectory : Option Path
  noSources : Bool
  emit : Emit
  json : Bool

/-- Where the model comes from. -/
inductive ModelSource where
  | stateSpace (a b c d : Option String)
  | transferFunction (num den : String)
  | zeroPoleGain (zeros poles : String) (gain : Float)
  | controller (kp ki kd t : Float)
  | file (path : Path)

inductive Task where
  | model (source : ModelSource) (options : BuildOptions)
  | doctor

/-- A command line: what it asks for, and how much is to be told about it. -/
structure Line where
  verbosity : Nat
  task : Task

def helpOption : OptionSpec := ⟨"help", some 'h', .showHelp⟩

def versionOption : OptionSpec := ⟨"version", some 'V', .showVersion⟩

def verboseOption : OptionSpec := ⟨"verbose", some 'v', .count⟩

def buildOptions : List OptionSpec :=
  [⟨"output", some 'o', .value .path false⟩,
   ⟨"dt", none, .value .number false⟩,
   ⟨"x0", none, .value .text true⟩,
   ⟨"u0", none, .value .text true⟩,
   ⟨"runtime-dir", none, .value .path false⟩,
   ⟨"no-sources", none, .switch⟩,
   ⟨"emit", none, .value (.choice (Emit.all.map Emit.name)) false⟩,
   ⟨"json", none, .switch⟩]

inductive Name where
  | ss | tf | zpk | pid | build | doctor
  deriving DecidableEq, Repr

namespace Name

def text : Name → String
  | .ss => "ss"
  | .tf => "tf"
  | .zpk => "zpk"
  | .pid => "pid"
  | .build => "build"
  | .doctor => "doctor"

def all : List Name := [.ss, .tf, .zpk, .pid, .build, .doctor]

def ofText? (s : String) : Option Name := all.find? fun n => n.text == s

def options : Name → List OptionSpec
  | .ss =>
    [⟨"A", some 'A', .value .text false⟩, ⟨"B", some 'B', .value .text false⟩,
     ⟨"C", some 'C', .value .text false⟩, ⟨"D", some 'D', .value .text false⟩]
  | .tf => [⟨"num", some 'n', .value .text false⟩, ⟨"den", some 'd', .value .text false⟩]
  | .zpk =>
    [⟨"zeros", some 'z', .value .text true⟩, ⟨"poles", some 'p', .value .text true⟩,
     ⟨"k", some 'k', .value .number true⟩]
  | .pid =>
    [⟨"kp", none, .value .number true⟩, ⟨"ki", none, .value .number true⟩,
     ⟨"kd", none, .value .number true⟩, ⟨"T", some 'T', .value .number true⟩]
  | .build | .doctor => []

/-- What may stand behind a command. -/
def grammar (n : Name) : Grammar where
  options :=
    n.options ++ (if n = .doctor then [] else buildOptions) ++ [verboseOption, helpOption]
  positional := if n = .build then some "model" else none
  required :=
    match n with
    | .tf => ["num", "den"]
    | .zpk => ["zeros", "poles"]
    | .build => ["model"]
    | _ => []
  commands := []

end Name

def helpCommand : String := "help"

/-- What may stand in front of a command. -/
def topGrammar : Grammar where
  options := [verboseOption, helpOption, versionOption]
  positional := none
  required := []
  commands := Name.all.map Name.text ++ [helpCommand]

namespace Progress

def text? (p : Progress) (name : String) : Option String := p.found.lookup name

def number? (p : Progress) (name : String) : Option Float :=
  (p.text? name).bind Number.ofSpelled?

def isGiven (p : Progress) (name : String) : Bool := (p.text? name).isSome

/-- How often an option is given that is counted, up to 255. -/
def times (p : Progress) (name : String) : Nat := min 255 (p.counted.count name)

end Progress

/-- The shared options that are given, and the usual values of the others. -/
def BuildOptions.ofProgress (p : Progress) : BuildOptions where
  output := Path.ofText ((p.text? "output").getD "./q.fmu")
  dt := p.number? "dt"
  x0 := p.text? "x0"
  u0 := p.text? "u0"
  runtimeDirectory := (p.text? "runtime-dir").map Path.ofText
  noSources := p.isGiven "no-sources"
  emit := ((p.text? "emit").bind fun s => Emit.all.find? fun e => e.name == s).getD .artifact
  json := p.isGiven "json"

def Name.task (n : Name) (p : Progress) : Task :=
  let text (name : String) := (p.text? name).getD ""
  let number (name : String) (usual : Float) := (p.number? name).getD usual
  let options := BuildOptions.ofProgress p
  match n with
  | .ss => .model (.stateSpace (p.text? "A") (p.text? "B") (p.text? "C") (p.text? "D")) options
  | .tf => .model (.transferFunction (text "num") (text "den")) options
  | .zpk => .model (.zeroPoleGain (text "zeros") (text "poles") (number "k" 1)) options
  | .pid =>
    .model (.controller (number "kp" 1) (number "ki" 0) (number "kd" 0) (number "T" 0)) options
  | .build => .model (.file (Path.ofText (text "model"))) options
  | .doctor => .doctor

/-- What asking for help on commands comes to: one command at most may be named. -/
def helpOn : List String → UsageError
  | [] => .help
  | [name] => if topGrammar.commands.contains name then .help else .unknownCommand
  | _ => .unknownCommand

def readBuildOptions (args : List String) : Except UsageError BuildOptions :=
  (Grammar.read ⟨buildOptions ++ [helpOption], none, [], []⟩ args).map BuildOptions.ofProgress

/-- Read a command line. The verbosity behind the command stands over the one in front. -/
def Line.read (args : List String) : Except UsageError Line := do
  match ← topGrammar.readUpToCommand .start args with
  | (p, none) =>
    let p ← p.settle
    throw (if p.counted.isEmpty then .nothingGiven else .noCommand)
  | (front, some (word, rest)) =>
    match Name.ofText? word with
    | none => throw (helpOn rest)
    | some n =>
      let p ← n.grammar.read rest
      let behind := p.times "verbose"
      return ⟨if behind = 0 then front.times "verbose" else behind, n.task p⟩

end Command
end LtiUnit
