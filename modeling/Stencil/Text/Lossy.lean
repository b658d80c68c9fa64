import Stencil.Text.Utf8

/-!
# Bytes as text

Bytes that need not be text are shown as text all the same: in place of what is no part of a
character stands one mark for the longest beginning of a character, or for a single byte if none
begins there.
-/

namespace Stencil.Text

/-- The bytes from a first one up to a last one. -/
structure ByteRange where
  first : UInt8
  last : UInt8

/-- Whether a byte is in a range. -/
def ByteRange.has (r : ByteRange) (b : UInt8) : Bool := r.first ≤ b && b ≤ r.last

/-- The bytes that continue a character. -/
def continuation : ByteRange := ⟨0x80, 0xBF⟩

/-- Where the bytes lie that follow the first byte of a character of more than one byte. The
second one is kept from spelling a character that has a shorter spelling, a surrogate, or a
number beyond the last character. -/
def followers (b : UInt8) : List ByteRange :=
  if b < 0xC2 then []
  else if b < 0xE0 then [continuation]
  else if b = 0xE0 then [⟨0xA0, 0xBF⟩, continuation]
  else if b = 0xED then [⟨0x80, 0x9F⟩, continuation]
  else if b < 0xF0 then [continuation, continuation]
  else if b = 0xF0 then [⟨0x90, 0xBF⟩, continuation, continuation]
  else if b < 0xF4 then [continuation, continuation, continuation]
  else if b = 0xF4 then [⟨0x80, 0x8F⟩, continuation, continuation]
  else []

/-- The part of a character's number that its first byte gives. -/
def leadBits (b : UInt8) : Nat :=
  if b < 0xE0 then b.toNat % 32 else if b < 0xF0 then b.toNat % 16 else b.toNat % 8

/-- The mark for bytes that are no part of a character. -/
def mark : Char := '\uFFFD'

/-- A character of which some bytes have been read: its number so far, and where the bytes lie
that are still to come. If none is to come there is no such character. -/
structure Partly where
  value : Nat
  expected : List ByteRange

namespace Partly

/-- No character. -/
def none : Partly := ⟨0, []⟩

/-- Reads a byte behind the end of a character. -/
def begin (b : UInt8) : List Char × Partly :=
  if b < 0x80 then ([Char.ofNat b.toNat], none)
  else
    match followers b with
    | [] => ([mark], none)
    | ranges => ([], ⟨leadBits b, ranges⟩)

/-- Reads a byte: the characters that it completes, and what is in progress behind it. -/
def read (p : Partly) (b : UInt8) : List Char × Partly :=
  match p.expected with
  | [] => begin b
  | r :: rest =>
    if r.has b then
      let value := p.value * 64 + b.toNat % 64
      if rest.isEmpty then ([Char.ofNat value], none) else ([], ⟨value, rest⟩)
    else
      let (cs, p) := begin b
      (mark :: cs, p)

end Partly

/-- The characters of some bytes behind what is in progress. -/
def mended (p : Partly) : List UInt8 → List Char
  | [] => if p.expected.isEmpty then [] else [mark]
  | b :: bs =>
    let (cs, p) := p.read b
    cs ++ mended p bs

/-- How bytes are shown as text. -/
def shown (bs : List UInt8) : String :=
  (ofBytes? bs).getD (String.ofList (mended .none bs))

end Stencil.Text
