/-!
# LtiUnit.Text.Utf8

Bytes read as UTF-8 as far as they are. Every stretch of bytes that begins a character and does not
finish it, and every byte that begins none, is read as the replacement character.
-/

namespace LtiUnit
namespace Text

/-- How a character is encoded that begins with some byte: the bits that the byte gives, the range
of the second byte, and how many bytes of six bits follow. -/
structure Lead where
  bits : Nat
  low : Nat
  high : Nat
  more : Nat
  deriving DecidableEq, Repr

/-- What a byte begins. The ranges of the second byte leave out numbers that fit into fewer bytes,
surrogates, and numbers past the last character. -/
def Lead.ofByte? (b : Nat) : Option Lead :=
  if b < 0x80 then some ⟨b, 0, 0, 0⟩
  else if b < 0xC2 then none
  else if b < 0xE0 then some ⟨b - 0xC0, 0x80, 0xBF, 1⟩
  else if b < 0xF0 then
    some ⟨b - 0xE0, if b = 0xE0 then 0xA0 else 0x80, if b = 0xED then 0x9F else 0xBF, 2⟩
  else if b < 0xF5 then
    some ⟨b - 0xF0, if b = 0xF0 then 0x90 else 0x80, if b = 0xF4 then 0x8F else 0xBF, 3⟩
  else none

/-- The state of reading: between characters, or inside one that has given `bits` so far. -/
inductive Reading where
  | between
  | inside (bits low high more : Nat)

def replacement : Char := '\uFFFD'

/-- Begin a character. -/
def begin (b : Nat) : List Char × Reading :=
  match Lead.ofByte? b with
  | none => ([replacement], .between)
  | some ⟨bits, _, _, 0⟩ => ([Char.ofNat bits], .between)
  | some ⟨bits, low, high, more⟩ => ([], .inside bits low high more)

def decodeFrom : Reading → List Nat → List Char
  | .between, [] => []
  | .inside .., [] => [replacement]
  | .between, b :: rest => (begin b).1 ++ decodeFrom (begin b).2 rest
  | .inside bits low high more, b :: rest =>
    if low ≤ b ∧ b ≤ high then
      let bits := bits * 64 + (b - 0x80)
      if more ≤ 1 then Char.ofNat bits :: decodeFrom .between rest
      else decodeFrom (.inside bits 0x80 0xBF (more - 1)) rest
    else replacement :: ((begin b).1 ++ decodeFrom (begin b).2 rest)

/-- Bytes read as text, whatever they are. -/
def lossy (bytes : List UInt8) : String :=
  String.ofList (decodeFrom .between (bytes.map UInt8.toNat))

def ofBytes (bytes : ByteArray) : String := lossy bytes.toList

/-- The bytes of a text. -/
def bytes (s : String) : List UInt8 := s.toUTF8.data.toList

end Text
end LtiUnit
