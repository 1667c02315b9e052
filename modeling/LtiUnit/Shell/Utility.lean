import LtiUnit.Files.Action
import LtiUnit.Machine.Outcome

/-!
# LtiUnit.Shell.Utility

The programs that scripts can count on: printing, testing, and handling files.
-/

namespace LtiUnit
namespace Shell

/-- A program is given its arguments. -/
abbrev Program := List String → Files → Outcome × Files

/-- The end of a program with a text on each output. -/
def ends (code : Nat) (out err : String) : Outcome := ⟨.code code, out.toUTF8, err.toUTF8⟩

/-- A program that looks at the files. -/
def reader (g : List String → Files → Outcome) : Program := fun args f => (g args f, f)

namespace Print

/-- At most `n` octal digits: their value so far, and what follows them. -/
def octal : Nat → Nat → List Char → Nat × List Char
  | n + 1, v, c :: cs =>
    if '0' ≤ c ∧ c ≤ '7' then octal n (v * 8 + (c.toNat - 48)) cs else (v, c :: cs)
  | _, v, cs => (v, cs)

/-- The byte that a letter stands for behind a backslash. -/
def letter? : Char → Option UInt8
  | 'a' => some 7
  | 'b' => some 8
  | 'f' => some 12
  | 'n' => some 10
  | 'r' => some 13
  | 't' => some 9
  | 'v' => some 11
  | '\\' => some 92
  | _ => none

def bytesOf (c : Char) : List UInt8 := (String.singleton c).toUTF8.toList

/-- What stands behind a backslash: its bytes, and the rest. Numbers in octal have a zero in front
in some places. -/
def escape (zeroFirst : Bool) (cs : List Char) : List UInt8 × List Char :=
  match cs with
  | [] => ([92], [])
  | c :: rest =>
    match letter? c with
    | some b => ([b], rest)
    | none =>
      if zeroFirst then
        if c == '0' then
          let (v, rest) := octal 3 0 rest
          ([UInt8.ofNat v], rest)
        else (92 :: bytesOf c, rest)
      else if '0' ≤ c ∧ c ≤ '7' then
        let (v, rest) := octal 3 0 cs
        ([UInt8.ofNat v], rest)
      else (92 :: bytesOf c, rest)

/-- A text with what stands behind its backslashes put in, and whether it ends the output. The
count bounds the characters. -/
def unescaped : Nat → List Char → List UInt8 × Bool
  | 0, _ | _, [] => ([], false)
  | _ + 1, '\\' :: 'c' :: _ => ([], true)
  | n + 1, '\\' :: cs =>
    let (bytes, rest) := escape true cs
    let (more, stop) := unescaped n rest
    (bytes ++ more, stop)
  | n + 1, c :: cs =>
    let (more, stop) := unescaped n cs
    (bytesOf c ++ more, stop)

/-- One pass over a format: the bytes, the arguments that are left, and whether any was asked
for. -/
def pass : Nat → List Char → List String → List UInt8 × List String × Bool
  | 0, _, args | _, [], args => ([], args, false)
  | n + 1, '%' :: '%' :: cs, args =>
    let (more, args, asked) := pass n cs args
    (37 :: more, args, asked)
  | n + 1, '%' :: c :: cs, args =>
    let arg := args.headD ""
    let bytes : List UInt8 :=
      match c with
      | 's' => arg.toUTF8.toList
      | 'b' => (unescaped arg.length arg.toList).1
      | 'c' => ((arg.toList.head?.map bytesOf).getD [])
      | 'd' | 'i' | 'u' => (toString (arg.toInt?.getD 0)).toUTF8.toList
      | _ => []
    let (more, args, _) := pass n cs (args.drop 1)
    (bytes ++ more, args, true)
  | n + 1, '\\' :: cs, args =>
    let (bytes, rest) := escape false cs
    let (more, args, asked) := pass n rest args
    (bytes ++ more, args, asked)
  | n + 1, c :: cs, args =>
    let (more, args, asked) := pass n cs args
    (bytesOf c ++ more, args, asked)

/-- A format is passed over again as long as arguments are left, at most `n` times. -/
def passes : Nat → List Char → List String → List UInt8
  | 0, _, _ => []
  | n + 1, format, args =>
    let (bytes, rest, asked) := pass format.length format args
    if asked && !rest.isEmpty then bytes ++ passes n format rest else bytes

def prints (bytes : List UInt8) : Outcome := ⟨.code 0, ⟨bytes.toArray⟩, .empty⟩

def echo (args : List String) : Outcome :=
  let (args, bare) :=
    match args with
    | "-n" :: rest => (rest, true)
    | _ => (args, false)
  let s := " ".intercalate args
  let (bytes, stop) := unescaped s.length s.toList
  prints (if bare || stop then bytes else bytes ++ [10])

/-- Print the arguments in a format. -/
def formatted : List String → Outcome
  | [] => ends 2 "" "printf: usage: printf format [arg ...]\n"
  | format :: args => prints (passes (args.length + 1) format.toList args)

end Print

namespace Condition

def number (t : String) : Except String Int :=
  match t.toInt? with
  | some n => .ok n
  | none => .error ("Illegal number: " ++ t)

/-- What an operand is that an operator stands in front of. -/
def unary? (f : Files) (op a : String) : Option Bool :=
  let p := Path.ofText a
  match op with
  | "-n" => some (!a.isEmpty)
  | "-z" => some a.isEmpty
  | "-e" | "-r" | "-w" => some (f.isFile p || f.isDirectory p)
  | "-f" => some (f.isFile p)
  | "-d" => some (f.isDirectory p)
  | "-x" => some ((f.executable? p).getD (f.isDirectory p))
  | "-s" =>
    match f.content? p with
    | .ok (.data bytes) => some (!bytes.isEmpty)
    | r => some r.toBool
  | _ => none

/-- How two operands relate. -/
def binary? (a op b : String) : Option (Except String Bool) :=
  let compare (holds : Int → Int → Bool) := some (return holds (← number a) (← number b))
  match op with
  | "=" => some (.ok (a == b))
  | "!=" => some (.ok (a != b))
  | "-eq" => compare (· == ·)
  | "-ne" => compare (· != ·)
  | "-lt" => compare (decide <| · < ·)
  | "-le" => compare (decide <| · ≤ ·)
  | "-gt" => compare (decide <| · > ·)
  | "-ge" => compare (decide <| · ≥ ·)
  | _ => none

/-- A condition without a conjunction, and what follows it. -/
def simple (f : Files) : List String → Except String (Bool × List String)
  | [] => .error "argument expected"
  | "!" :: a :: rest => do
    let (b, rest) ← simple f (a :: rest)
    return (!b, rest)
  | [a] => .ok (!a.isEmpty, [])
  | a :: op :: rest =>
    match rest with
    | b :: rest' =>
      match binary? a op b with
      | some r => return (← r, rest')
      | none =>
        match unary? f a op with
        | some r => .ok (r, rest)
        | none => .ok (!a.isEmpty, op :: rest)
    | [] =>
      match unary? f a op with
      | some r => .ok (r, [])
      | none => .error (a ++ ": unexpected operator")

/-- Whether conditions hold that are joined by words for "and" and "or"; at most `n` of them. -/
def joined (f : Files) : Nat → List String → Except String Bool
  | 0, _ => .error "argument expected"
  | n + 1, args => do
    let (b, rest) ← simple f args
    match rest with
    | [] => return b
    | "-a" :: rest => return (← joined f n rest) && b
    | "-o" :: rest => return (← joined f n rest) || b
    | op :: _ => throw (op ++ ": unexpected operator")

/-- Whether a condition holds. None at all does not. -/
def holds (f : Files) (args : List String) : Except String Bool :=
  if args.isEmpty then .ok false else joined f args.length args

/-- Whether a condition between brackets holds. -/
def bracketed (f : Files) (args : List String) : Except String Bool :=
  if args.getLast? = some "]" then holds f args.dropLast else .error "missing ]"

def outcome (name : String) : Except String Bool → Outcome
  | .ok true => ends 0 "" ""
  | .ok false => ends 1 "" ""
  | .error e => ends 2 "" (name ++ ": " ++ e ++ "\n")

end Condition

namespace FileTool

/-- The options among the arguments, and the others. -/
def parted (args : List String) : List String × List String :=
  args.partition fun a => a.startsWith "-" && a.length > 1

def has (options : List String) (c : Char) : Bool := options.any fun o => o.toList.contains c

def quoted (s : String) : String := "'" ++ s ++ "'"

def linesOf (texts : List String) : String := String.join (texts.map (· ++ "\n"))

/-- The names that are listed for a directory. -/
def listed (all : Bool) (names : List String) : List String :=
  (names.filter fun n => all || !n.startsWith ".").mergeSort fun a b => decide (a ≤ b)

def list (args : List String) (f : Files) : Outcome :=
  let (options, paths) := parted args
  let paths := if paths.isEmpty then ["."] else paths
  let found := paths.map fun p => (p, f.find? (.ofText p))
  let missing := found.filterMap fun
    | (p, .error e) => some ("ls: cannot access " ++ quoted p ++ ": " ++ e.reason)
    | _ => none
  let files := found.filterMap fun
    | (p, .ok (_, .file ..)) => some p
    | _ => none
  let directories := found.filterMap fun
    | (p, .ok (d, .directory)) =>
      let dots := if has options 'a' then [".", ".."] else []
      let names := listed (has options 'a' || has options 'A') (dots ++ f.names d)
      some (if paths.length > 1 then linesOf ((p ++ ":") :: names) else linesOf names)
    | _ => none
  let blocks := (if files.isEmpty then [] else [linesOf files]) ++ directories
  ends (if missing.isEmpty then 0 else 2) ("\n".intercalate blocks) (linesOf missing)

def concatenate (paths : List String) (f : Files) : Outcome :=
  let found := paths.map fun p => (p, f.content? (.ofText p))
  let bytes := found.foldl (fun (b : ByteArray) x =>
    match x.2 with
    | .ok (.data more) => b ++ more
    | _ => b) .empty
  let missing := found.filterMap fun
    | (p, .error e) => some ("cat: " ++ p ++ ": " ++ e.reason)
    | _ => none
  ⟨.code (if missing.isEmpty then 0 else 1), bytes, (linesOf missing).toUTF8⟩

/-- Do something for each of some paths. What fails is told, and the others are done. -/
def forEach (act : String → Action String Unit) (paths : List String) : Program := fun _ f =>
  let (errors, f) := paths.foldl (fun (errors, f) p =>
    match act p f with
    | (.ok (), f) => (errors, f)
    | (.error e, f) => (errors ++ [e], f)) (([] : List String), f)
  (ends (if errors.isEmpty then 0 else 1) "" (linesOf errors), f)

/-- Where a file goes that is given a name or a directory. -/
def targetFor (f : Files) (source target : String) : Path :=
  let p := Path.ofText target
  if f.isDirectory p then p.child ((Path.ofText source).fileName?.getD source) else p

/-- Copy or move files to a file or into a directory. What is not done is told by `failing`. -/
def transfer (tool : String) (failing : String → String → String) (act : Files → Path → Path → Except FileError Files) :
    Program := fun args f =>
  let paths := (parted args).2
  match paths.reverse with
  | target :: source :: more =>
    forEach (fun p f =>
      match f.find? (.ofText p) with
      | .error e => (.error (tool ++ ": cannot stat " ++ quoted p ++ ": " ++ e.reason), f)
      | .ok _ =>
        match act f (.ofText p) (targetFor f p target) with
        | .ok f => (.ok (), f)
        | .error e =>
          (.error (tool ++ ": cannot " ++ failing (quoted p) (quoted target) ++ ": " ++ e.reason),
            f))
      (source :: more).reverse [] f
  | _ => (ends 1 "" (tool ++ ": missing file operand\n"), f)

def makeDirectories : Program := fun args =>
  let (options, paths) := parted args
  forEach (fun p =>
    Action.wrap (fun e => "mkdir: cannot create directory " ++ quoted p ++ ": " ++ e.reason)
      (if has options 'p' then Action.createDirectories (.ofText p)
        else Action.change (·.createDirectory (.ofText p)))) paths []

def touch : Program := fun args =>
  forEach (fun p f =>
    if f.isFile (.ofText p) || f.isDirectory (.ofText p) then (.ok (), f)
    else
      Action.wrap (fun e => "touch: cannot touch " ++ quoted p ++ ": " ++ e.reason)
        (Action.change (·.write (.ofText p) (.data .empty))) f) (parted args).2 []

def remove : Program := fun args =>
  let (options, paths) := parted args
  let force := has options 'f'
  let deep := has options 'r' || has options 'R'
  forEach (fun p f =>
    let path := Path.ofText p
    let act := if deep && f.isDirectory path then f.removeDirectory path else f.removeFile path
    match act with
    | .ok f => (.ok (), f)
    | .error e =>
      if force && e = .notFound then (.ok (), f)
      else (.error ("rm: cannot remove " ++ quoted p ++ ": " ++ e.reason), f)) paths []

/-- Print the last name of a path, without an ending if that is given. -/
def lastName : List String → Outcome
  | [] => ends 1 "" "basename: missing operand\n"
  | path :: more =>
    let name := ((Text.pieces '/' path).filter (!·.isEmpty)).getLast?.getD "/"
    let ending := more.headD ""
    ends 0
      ((if name.endsWith ending && name != ending then (name.dropEnd ending.length).toString
        else name) ++ "\n") ""

/-- Print a path without its last name. -/
def parentOf : List String → Outcome
  | [] => ends 1 "" "dirname: missing operand\n"
  | path :: _ =>
    let parent := ((Path.ofText path).parent?.map Path.text).getD "/"
    ends 0 ((if parent.isEmpty then "." else parent) ++ "\n") ""

/-- Print the first lines of files. -/
def firstLines (args : List String) (f : Files) : Outcome :=
  let (count, paths) : Nat × List String :=
    match args with
    | "-n" :: n :: paths => (n.toNat?.getD 10, paths)
    | first :: paths =>
      match (String.ofList (first.toList.dropWhile (!·.isDigit))).toNat? with
      | some n => if first.startsWith "-" then (n, paths) else (10, args)
      | none => (10, args)
    | [] => (10, [])
  let text (p : String) : Except FileError String := return Text.ofBytes (← bytes p)
  let head (t : String) : String :=
    let lines := Text.pieces '\n' t
    if lines.length ≤ count then t else linesOf (lines.take count)
  let found := paths.map fun p => (p, text p)
  ends (if found.all (·.2.toBool) then 0 else 1)
    (String.join (found.filterMap fun x => x.2.toOption.map head))
    (linesOf (found.filterMap fun
      | (p, .error e) => some ("head: cannot open " ++ quoted p ++ " for reading: " ++ e.reason)
      | _ => none))
where
  bytes (p : String) : Except FileError ByteArray := do
    match ← f.content? (.ofText p) with
    | .data bytes => return bytes
    | _ => return .empty

/-- Let files be executed, or not any more. -/
def changeMode : Program := fun args =>
  match args with
  | [] => fun f => (ends 1 "" "chmod: missing operand\n", f)
  | mode :: paths =>
    let executable :=
      mode.contains '+' || (!mode.contains '-' && mode.toList.any fun c => c == '7' || c == '5')
    forEach (fun p f =>
      match f.find? (.ofText p) with
      | .ok (l, .file content old) =>
        (.ok (), f.fill l content (if mode.contains 'x' || !mode.contains '+' then executable
          else old))
      | .ok _ => (.ok (), f)
      | .error e => (.error ("chmod: cannot access " ++ quoted p ++ ": " ++ e.reason), f)) paths []

end FileTool

def utility? (name : String) : Option Program :=
  match name with
  | "true" => some (reader fun _ _ => ends 0 "" "")
  | "false" => some (reader fun _ _ => ends 1 "" "")
  | "echo" => some (reader fun args _ => Print.echo args)
  | "printf" => some (reader fun args _ => Print.formatted args)
  | "pwd" => some (reader fun _ f => ends 0 (f.here.path.text ++ "\n") "")
  | "test" => some (reader fun args f => Condition.outcome "test" (Condition.holds f args))
  | "[" => some (reader fun args f => Condition.outcome "[" (Condition.bracketed f args))
  | "sleep" => some (reader fun _ _ => ends 0 "" "")
  | "basename" => some (reader fun args _ => FileTool.lastName args)
  | "dirname" => some (reader fun args _ => FileTool.parentOf args)
  | "head" => some (reader FileTool.firstLines)
  | "chmod" => some FileTool.changeMode
  | "ls" => some (reader FileTool.list)
  | "cat" => some (reader FileTool.concatenate)
  | "cp" => some (FileTool.transfer "cp" (fun _ t => "create regular file " ++ t) Files.copy)
  | "mv" => some (FileTool.transfer "mv" (fun s t => "move " ++ s ++ " to " ++ t) Files.move)
  | "mkdir" => some FileTool.makeDirectories
  | "touch" => some FileTool.touch
  | "rm" => some FileTool.remove
  | _ => none

def utilities : List String :=
  ["true", "false", "echo", "printf", "pwd", "test", "[", "ls", "cat", "cp", "mv", "mkdir",
   "touch", "rm", "sleep", "basename", "dirname", "head", "chmod"]

end Shell
end LtiUnit
