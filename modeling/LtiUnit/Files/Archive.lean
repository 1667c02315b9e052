import LtiUnit.Files.Tree
import LtiUnit.Text
import LtiUnit.Text.Utf8

/-!
# LtiUnit.Files.Archive

What an archive of a directory holds: all files below it. A file is packed under the way to it from
the directory, with slashes between the parts; directories are not packed. The files stand in the
order of the bytes of their names, which is that of their characters.

A name in an archive is text, while the name of a file may be any bytes, which are read as far as
they are text (`entryName`).
-/

namespace LtiUnit
namespace Archive

/-- The permission bits of every file in an archive. -/
def mode : Nat := 0o644

/-- The name that a file is packed under, by the parts of the way to it. -/
def entryName (parts : List (List UInt8)) : String := Text.separated "/" (parts.map Text.lossy)

/-- The name that a location is packed under, seen from a directory that it lies below. -/
def nameFrom (d l : Location) : String :=
  entryName ((l.take (l.length - d.length)).reverse.map Text.bytes)

/-- The files below a directory, with the names that they are packed under. -/
def filesBelow (f : Files) (d : Location) : List (String × Content) :=
  f.entries.filterMap fun
    | (l, .file content _) => if Files.isBelow l d then some (nameFrom d l, content) else none
    | (_, .directory) => none

/-- The directories below a directory. -/
def directoriesBelow (f : Files) (d : Location) : List String :=
  f.entries.filterMap fun
    | (l, .directory) => if Files.isBelow l d && l != d then some (nameFrom d l) else none
    | (_, .file ..) => none

def sorted (files : List (String × Content)) : List (String × Content) :=
  files.mergeSort fun a b => decide (a.1 ≤ b.1)

/-- What an archive of a directory holds. -/
def ofDirectory (f : Files) (d : Location) : List (String × Content) := sorted (filesBelow f d)

end Archive
end LtiUnit
