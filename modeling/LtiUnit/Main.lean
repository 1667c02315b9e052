import LtiUnit.Command.Run

/-!
# LtiUnit.Main

The program. Input and output stay here: the files that a command line can ask for are read first,
the command is carried out on them, and what it comes to is printed. No other programs are started,
so that units are previewed and checked here, and no compiler is found. Directories that are named
are taken to be there.
-/

namespace LtiUnit
namespace Main

open Command

def read? (p : Path) : IO (Option ByteArray) := do
  try return some (← IO.FS.readBinFile p.text) catch _ => return none

def withFile (f : Files) (p : Path) : IO Files := do
  match ← read? p with
  | none => return f
  | some bytes =>
    let write : Action FileError Unit := do
      if let some d := p.parent? then Action.createDirectories d
      Action.change (·.write p (.data bytes))
    return (write f).2

def withDirectory (f : Files) (p : Path) : Files := (Action.createDirectories p f).2

/-- The files that a task is carried out on. -/
def gather (cwd : Path) (environment : String → Option String) (task : Task) : IO Files := do
  let f := withDirectory .empty cwd
  let f := f.seenFrom ((f.directory? cwd).toOption.getD [])
  let f ← (cwd.ancestors.map (·.child Config.fileName)).foldlM withFile f
  let (options, f) ← match task with
    | .doctor => pure (Doctor.noOptions, f)
    | .model source options => do
      let f := withDirectory f (Package.Destination.directoryOf options.output)
      let f ← match source with
        | .file p => withFile f p
        | _ => pure f
      pure (options, f)
  let found := (findConfig f cwd).toOption.bind id
  match Settings.resolve options found cwd environment with
  | .ok s => (Package.Skeleton.required.map s.runtimeDirectory.child).foldlM withFile f
  | .error _ => return f

def platform : Platform := ⟨.linux, 64⟩

/-- The environment variables that a command asks for, as far as they are set. -/
def given : IO (List (String × String)) :=
  [runtimeVariable, compilerVariable].filterMapM fun name => do
    return (← IO.getEnv name).map fun value => (name, value)

def number (bytes : ByteArray) : Nat := bytes.foldl (fun n b => n * 256 + b.toNat) 0

/-- Random bits, and the instant that the environment gives, which is a number of seconds. -/
def draw : IO Occasion := do
  let bits := BitVec.ofNat 128 (number (← IO.getRandomBytes 16))
  let seconds := ((← IO.getEnv "SOURCE_DATE_EPOCH").bind String.toNat?).getD 0
  return ⟨.ofRandom bits, seconds⟩

def usage (e : UsageError) : String :=
  match e with
  | .version => toolAndVersion
  | _ =>
    "Usage: " ++ toolName ++ " <" ++ Text.separated "|" (Name.all.map Name.text) ++ "> [options]"

/-- Put the time that a build has taken into its report. -/
def timed (milliseconds : Nat) : Product → Product
  | .report r json => .report { r with milliseconds := milliseconds } json
  | p => p

end Main
end LtiUnit

open LtiUnit in
def main (args : List String) : IO UInt32 := do
  let begun ← IO.monoMsNow
  match Command.Line.read args with
  | .error e =>
    if e.exitCode = 0 then IO.println (Main.usage e) else IO.eprintln (Main.usage e)
    return UInt32.ofNat e.exitCode
  | .ok line =>
    let cwd := Path.ofText ((← IO.getEnv "PWD").getD "/")
    let given ← Main.given
    let host : Command.Host :=
      { platform := .ok Main.platform
        environment := fun name => given.lookup name
        start := fun _ => throw .notFound
        occasion := ← Main.draw }
    let f ← Main.gather cwd host.environment line.task
    match (line.task.run host f).1 with
    | .ok product =>
      IO.print (Main.timed ((← IO.monoMsNow) - begun) product).printed
      return 0
    | .error e =>
      IO.eprintln ("error: " ++ e.message)
      return 1
