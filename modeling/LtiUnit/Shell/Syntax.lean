/-!
# LtiUnit.Shell.Syntax

The language of command scripts: commands made of words, put together with redirections, sequences,
conditions, choices and loops. Pipes, functions and arithmetic are left out.
-/

namespace LtiUnit
namespace Shell

/-- What is done to the value of a variable before it is used. -/
inductive Change where
  | asIs
  | length
  /-- Another text stands for a value that is not there, or for one that is empty as well. -/
  | orElse (emptyToo : Bool) (text : String)
  /-- Another text stands for a value that is there, and not empty either. -/
  | ifThere (emptyToo : Bool) (text : String)
  /-- A stretch of the form of a pattern is taken away. -/
  | without (atEnd longest : Bool) (pattern : String)
  deriving DecidableEq, Repr

/-- A part of a word. What is not quoted is cut at blanks once it is known, unless it is written in
the script. -/
inductive Piece where
  | text (s : String) (quoted : Bool)
  | variable (name : String) (change : Change) (quoted : Bool)
  /-- What a script writes that begins on the given line. -/
  | output (line : Nat) (script : String) (quoted : Bool)
  deriving DecidableEq, Repr

abbrev Word := List Piece

/-- Where an output goes. -/
inductive Target where
  | file (path : Word) (append : Bool)
  /-- Where another output goes at the moment. -/
  | copy (output : Word)
  deriving DecidableEq, Repr

/-- The redirection of an output, by its number. -/
structure Redirection where
  output : Nat
  target : Target
  deriving DecidableEq, Repr

inductive Command where
  | nothing
  /-- Variables that are set, and the words of a command if there is one; it stands on the given
  line. -/
  | simple (line : Nat) (settings : List (String × Word)) (words : List Word)
      (redirections : List Redirection)
  /-- A command whose variables, arguments and directory are its own. -/
  | apart (body : Command) (redirections : List Redirection)
  | group (body : Command) (redirections : List Redirection)
  | both (first second : Command)
  | ifSucceeds (first second : Command)
  | ifFails (first second : Command)
  | negated (body : Command)
  | choice (test success failure : Command)
  /-- Run the body if a word has the form of one of some patterns. -/
  | select (subject : Word) (patterns : List Word) (body otherwise : Command)
  /-- Repeat the body as long as the test succeeds, or as long as it fails. -/
  | repeated (whileSucceeds : Bool) (test body : Command)
  /-- Run the body for each of the words, or for each argument if none are given. -/
  | each (name : String) (words : Option (List Word)) (body : Command)

end Shell
end LtiUnit
