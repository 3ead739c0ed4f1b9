/-!
# UTF-8

Characters as bytes, and back.  Bytes that begin no character, or a character
that does not end, are told apart from those that make one.
-/

namespace Provision.Utf8

/-- A byte that carries six further bits of a character. -/
def continuation (bits : Nat) : UInt8 :=
  UInt8.ofNat (0x80 + bits % 64)

/-- The bytes of a character. -/
def encodeChar (c : Char) : List UInt8 :=
  let n := c.toNat
  if n < 0x80 then [UInt8.ofNat n]
  else if n < 0x800 then [UInt8.ofNat (0xC0 + n / 64), continuation n]
  else if n < 0x10000 then
    [UInt8.ofNat (0xE0 + n / 4096), continuation (n / 64), continuation n]
  else
    [UInt8.ofNat (0xF0 + n / 262144), continuation (n / 4096), continuation (n / 64), continuation n]

/-- The bytes of a text. -/
def encode (text : String) : List UInt8 :=
  text.toList.flatMap encodeChar

/-- A character of which some bytes were read. -/
structure Partial where
  /-- How many bytes are missing. -/
  missing : Nat
  /-- The least value that the next byte may have. -/
  low : UInt8
  /-- The greatest value that the next byte may have. -/
  high : UInt8
  /-- The bits that were read. -/
  bits : Nat

/-- What a byte does at the start of a character: it is a character, begins one, or does neither. -/
def start (b : UInt8) : List (Option Char) × Option Partial :=
  let n := b.toNat
  if n < 0x80 then ([some (Char.ofNat n)], none)
  else if n < 0xC2 then ([none], none)
  else if n < 0xE0 then ([], some ⟨1, 0x80, 0xBF, n - 0xC0⟩)
  else if n = 0xE0 then ([], some ⟨2, 0xA0, 0xBF, 0⟩)
  else if n = 0xED then ([], some ⟨2, 0x80, 0x9F, 13⟩)
  else if n < 0xF0 then ([], some ⟨2, 0x80, 0xBF, n - 0xE0⟩)
  else if n = 0xF0 then ([], some ⟨3, 0x90, 0xBF, 0⟩)
  else if n < 0xF4 then ([], some ⟨3, 0x80, 0xBF, n - 0xF0⟩)
  else if n = 0xF4 then ([], some ⟨3, 0x80, 0x8F, 4⟩)
  else ([none], none)

/-- What a byte does behind the bytes read so far. -/
def continue? (p : Partial) (b : UInt8) : Option (List (Option Char) × Option Partial) :=
  if p.low ≤ b && b ≤ p.high then
    let bits := p.bits * 64 + (b.toNat - 0x80)
    if p.missing ≤ 1 then some ([some (Char.ofNat bits)], none)
    else some ([], some ⟨p.missing - 1, 0x80, 0xBF, bits⟩)
  else none

/-- The characters of a list of bytes, with a gap for each run of bytes that makes none. -/
def marks : Option Partial → List UInt8 → List (Option Char)
  | none, [] => []
  | some _, [] => [none]
  | none, b :: rest =>
    let (found, next) := start b
    found ++ marks next rest
  | some p, b :: rest =>
    match continue? p b with
    | some (found, next) => found ++ marks next rest
    | none =>
      let (found, next) := start b
      none :: (found ++ marks next rest)

/-- The text of a list of bytes, if all of them make characters. -/
def decode? (bytes : List UInt8) : Option String :=
  ((marks none bytes).mapM id).map String.ofList

/-- What stands for bytes that make no character. -/
def replacement : Char := Char.ofNat 0xFFFD

/-- The text of a list of bytes, with a replacement in each gap. -/
def decodeLossy (bytes : List UInt8) : String :=
  String.ofList ((marks none bytes).map fun mark => mark.getD replacement)

end Provision.Utf8
