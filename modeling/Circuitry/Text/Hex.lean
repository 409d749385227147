/-!
# Hexadecimal text

Bytes written as two lower-case digits each, and read back from digits of either case. Reading
refuses an odd number of digits before it looks at any of them; after that the first character
that is no digit is reported with its position, both counted in bytes of the UTF-8 text.
-/

namespace Circuitry.Text.Hex

def digit (n : Nat) : Char :=
  if n < 10 then Char.ofNat (48 + n) else Char.ofNat (87 + n)

/-- The value of a hexadecimal digit of either case, given as a code point. -/
def digitValue? (n : Nat) : Option Nat :=
  if 48 ≤ n ∧ n ≤ 57 then some (n - 48)
  else if 97 ≤ n ∧ n ≤ 102 then some (n - 87)
  else if 65 ≤ n ∧ n ≤ 70 then some (n - 55)
  else none

def byteDigits (b : UInt8) : List Char :=
  [digit (b.toNat / 16), digit (b.toNat % 16)]

/-- Bytes as lower-case digits, two for each byte. -/
def encode (bytes : List UInt8) : String :=
  String.ofList (bytes.flatMap byteDigits)

inductive Error where
  /-- The number of digits is odd. -/
  | oddLength
  /-- The byte `byte` at `position` is no digit. -/
  | badDigit (byte : UInt8) (position : Nat)
  deriving Repr, DecidableEq

/-- Reads pairs of digits, the first of which stands at `position`. -/
def decodePairs (position : Nat) : List UInt8 → Except Error (List UInt8)
  | high :: low :: rest =>
    match digitValue? high.toNat, digitValue? low.toNat with
    | none, _ => .error (.badDigit high position)
    | some _, none => .error (.badDigit low (position + 1))
    | some x, some y => (decodePairs (position + 2) rest).map (UInt8.ofNat (16 * x + y) :: ·)
  | _ => .ok []

def decode (digits : List Char) : Except Error (List UInt8) :=
  let bytes := digits.flatMap String.utf8EncodeChar
  if bytes.length % 2 = 1 then .error .oddLength else decodePairs 0 bytes

end Circuitry.Text.Hex
