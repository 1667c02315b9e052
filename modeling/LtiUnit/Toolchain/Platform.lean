import LtiUnit.Json.Number
import LtiUnit.Json.Value

/-!
# LtiUnit.Toolchain.Platform

The platforms that a unit can carry a binary for, and how they are named: in archives, in reports,
in JSON documents and by the machines themselves.
-/

namespace LtiUnit

inductive OperatingSystem where
  | win | linux | darwin
  deriving DecidableEq, Repr

namespace OperatingSystem

def name : OperatingSystem → String
  | .win => "win"
  | .linux => "linux"
  | .darwin => "darwin"

def all : List OperatingSystem := [.win, .linux, .darwin]

def ofName? (s : String) : Option OperatingSystem := all.find? fun os => os.name == s

/-- The system that a machine calls itself. -/
def ofTarget? : String → Option OperatingSystem
  | "windows" => some .win
  | "linux" => some .linux
  | "macos" => some .darwin
  | _ => none

def libraryExtension : OperatingSystem → String
  | .win => "dll"
  | .linux => "so"
  | .darwin => "dylib"

/-- The compiler that is taken when no other is asked for. -/
def defaultCompiler : OperatingSystem → String
  | .win => "cl"
  | .linux => "gcc"
  | .darwin => "clang"

/-- A system in a JSON document: its name, or an object with its name over `null`. -/
def ofJson? : Json.Value → Option OperatingSystem
  | .string parts => (Json.text? parts).bind ofName?
  | .object [(key, .null)] => (Json.text? key).bind ofName?
  | _ => none

end OperatingSystem

structure Platform where
  system : OperatingSystem
  bits : Nat
  deriving DecidableEq, Repr

inductive PlatformError where
  | unknownSystem (name : String)
  | pointerBits (bits : Nat)
  | wordSize (bits : Nat) (system : OperatingSystem)
  deriving DecidableEq, Repr

def PlatformError.message : PlatformError → String
  | .unknownSystem name => "operating system '" ++ name ++ "' is not supported"
  | .pointerBits bits => toString bits ++ "-bit pointers are not supported"
  | .wordSize bits system =>
    toString bits ++ "-bit " ++ system.name ++ " is not a platform a unit can target"

namespace Platform

/-- The platform of a system and a word size, which has to be 32 or 64. -/
def make? (system : OperatingSystem) (bits : Nat) : Except PlatformError Platform :=
  if bits = 32 ∨ bits = 64 then .ok ⟨system, bits⟩ else .error (.wordSize bits system)

/-- The platform of a machine, by what it calls its system and by the width of its pointers. -/
def ofTarget? (target : String) (pointerBits : Nat) : Except PlatformError Platform :=
  match OperatingSystem.ofTarget? target with
  | none => .error (.unknownSystem target)
  | some system =>
    if 255 < pointerBits then .error (.pointerBits pointerBits) else make? system pointerBits

/-- The name of a platform, which is also that of its directory in an archive. -/
def id (p : Platform) : String := p.system.name ++ toString p.bits

def libraryName (p : Platform) (identifier : String) : String :=
  identifier ++ "." ++ p.system.libraryExtension

def toJson (p : Platform) : Json.Value :=
  .ofMembers [("os", .ofString p.system.name), ("bits", .ofNat p.bits)]

/-- A word size in a JSON document: a whole number of at most eight bits. -/
def bitsOfJson? : Json.Value → Option Nat
  | .number lexeme => do
    let n ← (← Json.Numeral.ofChars? lexeme).toNat?
    if n < 256 then return n else none
  | _ => none

def under (key : String) (members : List (String × Json.Value)) : List Json.Value :=
  (members.filter (·.1 == key)).map Prod.snd

/-- A platform in a JSON document: an object with members `os` and `bits`, each exactly once and
among any others, or a list of the two. Values of other members are passed over, whatever they
hold. -/
def ofJson? : Json.Value → Option Platform
  | .array [system, bits] => do return ⟨← OperatingSystem.ofJson? system, ← bitsOfJson? bits⟩
  | .object members => do
    let members ← members.mapM fun (key, v) => (Json.text? key).map (·, v)
    match under "os" members, under "bits" members with
    | [system], [bits] => return ⟨← OperatingSystem.ofJson? system, ← bitsOfJson? bits⟩
    | _, _ => none
  | _ => none

end Platform
end LtiUnit
