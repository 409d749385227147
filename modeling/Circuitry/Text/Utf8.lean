/-!
# UTF-8

Text as bytes, and bytes read back as text. Reading stops at the first byte from which no
character can be read and reports its index: with the length of the offending sequence when the
bytes can never become a character, and as incomplete when the input ends inside one.
-/

namespace Circuitry.Text.Utf8

def encode (text : String) : List UInt8 :=
  text.toList.flatMap String.utf8EncodeChar

inductive Error where
  /-- The `length` bytes from `index` start no character. -/
  | invalid (length index : Nat)
  /-- The input ends inside the character that starts at `index`. -/
  | incomplete (index : Nat)
  deriving Repr, DecidableEq

def Error.message : Error → String
  | .invalid length index => s!"invalid utf-8 sequence of {length} bytes from index {index}"
  | .incomplete index => s!"incomplete utf-8 byte sequence from index {index}"

/-- Whether a byte may follow the lead byte of a sequence. -/
def isContinuation (b : UInt8) : Bool :=
  0x80 ≤ b && b ≤ 0xbf

/-- Whether `second` may follow `lead` in a sequence of three bytes: no overlong forms and no
surrogates. -/
def isSecondOfThree (lead second : UInt8) : Bool :=
  (lead != 0xe0 || 0xa0 ≤ second) && (lead != 0xed || second ≤ 0x9f) && isContinuation second

/-- Whether `second` may follow `lead` in a sequence of four bytes: no overlong forms and nothing
above the last code point. -/
def isSecondOfFour (lead second : UInt8) : Bool :=
  (lead != 0xf0 || 0x90 ≤ second) && (lead != 0xf4 || second ≤ 0x8f) && isContinuation second

/-- The low six bits of a continuation byte. -/
def payload (b : UInt8) : Nat :=
  b.toNat % 64

/-- Reads the characters of `bytes`, the first of which has the given index. -/
def decodeFrom (index : Nat) : List UInt8 → Except Error (List Char)
  | [] => .ok []
  | b :: rest =>
    if b ≤ 0x7f then
      (decodeFrom (index + 1) rest).map (Char.ofNat b.toNat :: ·)
    else if 0xc2 ≤ b && b ≤ 0xdf then
      match rest with
      | [] => .error (.incomplete index)
      | c :: rest =>
        if isContinuation c then
          (decodeFrom (index + 2) rest).map (Char.ofNat (b.toNat % 32 * 64 + payload c) :: ·)
        else .error (.invalid 1 index)
    else if 0xe0 ≤ b && b ≤ 0xef then
      match rest with
      | [] => .error (.incomplete index)
      | c :: rest =>
        if isSecondOfThree b c then
          match rest with
          | [] => .error (.incomplete index)
          | d :: rest =>
            if isContinuation d then
              (decodeFrom (index + 3) rest).map
                (Char.ofNat (b.toNat % 16 * 4096 + payload c * 64 + payload d) :: ·)
            else .error (.invalid 2 index)
        else .error (.invalid 1 index)
    else if 0xf0 ≤ b && b ≤ 0xf4 then
      match rest with
      | [] => .error (.incomplete index)
      | c :: rest =>
        if isSecondOfFour b c then
          match rest with
          | [] => .error (.incomplete index)
          | d :: rest =>
            if isContinuation d then
              match rest with
              | [] => .error (.incomplete index)
              | e :: rest =>
                if isContinuation e then
                  (decodeFrom (index + 4) rest).map
                    (Char.ofNat
                      (b.toNat % 8 * 262144 + payload c * 4096 + payload d * 64 + payload e) :: ·)
                else .error (.invalid 3 index)
            else .error (.invalid 2 index)
        else .error (.invalid 1 index)
    else .error (.invalid 1 index)

def decode (bytes : List UInt8) : Except Error String :=
  (decodeFrom 0 bytes).map String.ofList

end Circuitry.Text.Utf8
