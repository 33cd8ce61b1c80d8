/-
Reading bytes as text when they need not be valid UTF-8.

`decode` reads well-formed sequences as their characters and writes one
U+FFFD for each maximal part of an ill-formed one: the longest run of
bytes that could still have begun a character. Decoding never fails, so
a source file with a stray byte in a comment is a source file like any
other.

The reader is a machine that is fed one byte at a time and keeps only
the sequence that is still open. What it gives out are characters with
the number of bytes each was read from, so the place of a character in
the bytes can be told (`pieces`).
-/

namespace ModuleAtlas.Text.Utf8

/-- The mark that stands for what could not be read. -/
def replacement : Char := '\ufffd'

/-- A character and the number of bytes that it was read from. -/
structure Piece where
  char : Char
  width : Nat

/-- A sequence that is still open: the number of bytes it lacks, the
range of the next one, the bits and the number of bytes it has. -/
structure Pending where
  lacking : Nat
  low : UInt8
  high : UInt8
  bits : Nat
  width : Nat

/-- The sequence that the byte `b` begins, after the table of
well-formed byte sequences; `none` for a byte that begins none. -/
def lead? (b : UInt8) : Option Pending :=
  if b < 0x80 then some ⟨0, 0x80, 0xbf, b.toNat, 1⟩
  else if b < 0xc2 then none
  else if b < 0xe0 then some ⟨1, 0x80, 0xbf, b.toNat - 0xc0, 1⟩
  else if b = 0xe0 then some ⟨2, 0xa0, 0xbf, 0, 1⟩
  else if b = 0xed then some ⟨2, 0x80, 0x9f, 0xd, 1⟩
  else if b < 0xf0 then some ⟨2, 0x80, 0xbf, b.toNat - 0xe0, 1⟩
  else if b = 0xf0 then some ⟨3, 0x90, 0xbf, 0, 1⟩
  else if b < 0xf4 then some ⟨3, 0x80, 0xbf, b.toNat - 0xf0, 1⟩
  else if b = 0xf4 then some ⟨3, 0x80, 0x8f, 4, 1⟩
  else none

/-- What is open and what was given out, the latest piece first. -/
structure Reading where
  pending : Option Pending
  read : List Piece

/-- Takes a byte while no sequence is open. -/
def Reading.start (read : List Piece) (b : UInt8) : Reading :=
  match lead? b with
  | none => ⟨none, ⟨replacement, 1⟩ :: read⟩
  | some p => if p.lacking = 0 then ⟨none, ⟨Char.ofNat p.bits, 1⟩ :: read⟩ else ⟨some p, read⟩

/-- Takes a byte. One that cannot continue the open sequence ends it as
unreadable and begins anew. -/
def Reading.feed (r : Reading) (b : UInt8) : Reading :=
  match r.pending with
  | none => start r.read b
  | some p =>
    if p.low ≤ b ∧ b ≤ p.high then
      let bits := p.bits * 64 + (b.toNat - 0x80)
      if p.lacking ≤ 1 then ⟨none, ⟨Char.ofNat bits, p.width + 1⟩ :: r.read⟩
      else ⟨some ⟨p.lacking - 1, 0x80, 0xbf, bits, p.width + 1⟩, r.read⟩
    else start (⟨replacement, p.width⟩ :: r.read) b

/-- The characters that the bytes spell, each with its width. -/
def pieces (bytes : List UInt8) : List Piece :=
  let r := bytes.foldl Reading.feed ⟨none, []⟩
  match r.pending with
  | none => r.read.reverse
  | some p => (⟨replacement, p.width⟩ :: r.read).reverse

/-- The characters that the bytes spell, with U+FFFD where they spell
none. -/
def decode (bytes : List UInt8) : List Char :=
  (pieces bytes).map Piece.char

end ModuleAtlas.Text.Utf8
