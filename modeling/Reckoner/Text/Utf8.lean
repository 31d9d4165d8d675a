/-!
# Characters from bytes

UTF-8 read byte by byte. Where bytes spell no character, the longest part that could have begun one
counts as a single gap.
-/

namespace Reckoner.Text

/-- What a first byte says: the bits it gives, and the range of every byte that has to follow. -/
def leadByte (b : Nat) : Option (Nat × List (Nat × Nat)) :=
  let any := (0x80, 0xBF)
  if b < 0x80 then some (b, [])
  else if b < 0xC2 then none
  else if b < 0xE0 then some (b - 0xC0, [any])
  else if b = 0xE0 then some (0, [(0xA0, 0xBF), any])
  else if b = 0xED then some (0xD, [(0x80, 0x9F), any])
  else if b < 0xF0 then some (b - 0xE0, [any, any])
  else if b = 0xF0 then some (0, [(0x90, 0xBF), any, any])
  else if b < 0xF4 then some (b - 0xF0, [any, any, any])
  else if b = 0xF4 then some (4, [(0x80, 0x8F), any, any])
  else none

/-- The code point behind a first byte, and the bytes left. -/
def followers (bits : Nat) : List (Nat × Nat) → List UInt8 → Option Nat × List UInt8
  | [], bytes => (some bits, bytes)
  | _, [] => (none, [])
  | (low, high) :: ranges, b :: bytes =>
    if low ≤ b.toNat && b.toNat ≤ high then
      followers (64 * bits + (b.toNat - 0x80)) ranges bytes
    else (none, b :: bytes)

/-- The characters and the gaps of a sequence of bytes. -/
def characters : Nat → List UInt8 → List (Option Char)
  | 0, _ => []
  | _, [] => []
  | n + 1, b :: bytes =>
    match leadByte b.toNat with
    | none => none :: characters n bytes
    | some (bits, ranges) =>
      let (code, rest) := followers bits ranges bytes
      code.map Char.ofNat :: characters n rest

/-- The characters that bytes spell, if they leave no gap. -/
def decode? (bytes : List UInt8) : Option (List Char) :=
  (characters bytes.length bytes).mapM id

/-- The characters that bytes spell, with a mark for every gap. -/
def decodeLossy (bytes : List UInt8) : List Char :=
  (characters bytes.length bytes).map fun c => c.getD '\uFFFD'

def encode (cs : List Char) : List UInt8 :=
  cs.flatMap String.utf8EncodeChar

end Reckoner.Text
