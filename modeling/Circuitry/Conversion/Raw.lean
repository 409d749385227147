import Circuitry.Conversion.Country
import Circuitry.Conversion.Error
import Circuitry.Conversion.Value

/-!
# Reading raw values

Every node reads some raw JSON values. Numbers are read from JSON integers, from doubles that are
exact integers, and from decimal text; truth values also from their two words; bytes and field
elements from digits.
-/

namespace Circuitry

def circuitStringLength : Nat := 128

namespace Refusal

def checkAscii (text : String) : Except Refusal Unit :=
  if text.toList.all fun c => c.toNat < 128 then .ok () else .error (.notAscii text)

/-- The characters of base58 text: digits and letters without the look-alikes. -/
def base58Alphabet : List Char :=
  "123456789ABCDEFGHJKLMNPQRSTUVWXYZabcdefghijkmnopqrstuvwxyz".toList

def checkBase58 (text : String) : Except Refusal Unit :=
  match text.toList.find? fun c => !base58Alphabet.contains c with
  | some c => .error (.notBase58 c)
  | none => if text.toList.isEmpty then .error .emptyBase58 else .ok ()

def checkCircuitString (text : String) : Except Refusal Unit :=
  if text.toList.length > circuitStringLength then
    .error (.tooLong text.toList.length circuitStringLength)
  else .ok ()

def checkBits (n bits : Nat) : Except Refusal Unit :=
  if n < capacity bits then .ok () else .error (.overflow n bits)

end Refusal

namespace Raw

def string (raw : Json) : Except Refusal String :=
  match raw with
  | .string s => .ok s
  | other => .error (.wrongForm .string other)

def boolean (raw : Json) : Except Refusal Bool :=
  match raw with
  | .bool b => .ok b
  | .string s =>
    if s = "true" then .ok true
    else if s = "false" then .ok false
    else .error (.wrongForm .boolean raw)
  | other => .error (.wrongForm .boolean other)

/-- Decimal digits behind an optional plus sign, with a value below `2 ^ 128`. -/
def decimal? (text : String) : Option Nat :=
  let digits := match text.toList with
    | '+' :: rest => rest
    | rest => rest
  if digits.isEmpty || !digits.all Char.isDigit then none
  else
    let n := Nat.ofDigitChars 10 digits 0
    if n < capacity 128 then some n else none

/-- The largest double up to which all integers are exact. -/
def maxSafeInteger : Nat := capacity 53 - 1

/-- The natural number that a raw value denotes. -/
def natural? (raw : Json) : Option Nat :=
  match raw with
  | .number (.integer n) => (Number.integer n).unsigned?
  | .number (.double x) => x.natural?.filter (· ≤ maxSafeInteger)
  | .string s => decimal? s
  | _ => none

def natural (raw : Json) : Except Refusal Nat :=
  match natural? raw with
  | some n => .ok n
  | none => .error (.wrongForm .unsignedInteger raw)

def hexDigits? (text : String) : Option (List Char) :=
  match text.toList with
  | '0' :: 'x' :: rest => some rest
  | _ => none

def hex (digits : List Char) : Except Refusal (List UInt8) :=
  (Text.Hex.decode digits).mapError .hex

def byte (item : Json) : Except Refusal UInt8 :=
  match item.unsigned? with
  | some n => if n < 256 then .ok (UInt8.ofNat n) else .error (.notAByte item)
  | none => .error (.notAByte item)

/-- Reads bytes from digits, with or without `0x`, or from an array. -/
def bytes (raw : Json) : Except Refusal (List UInt8) :=
  match raw with
  | .string s => hex ((hexDigits? s).getD s.toList)
  | .array items => items.mapM byte
  | other => .error (.wrongForm .hexOrBytes other)

/-- Reads a field element from the digits of its canonical representative. -/
def fieldDigits (digits : List Char) : Except Refusal Field := do
  let data ← hex digits
  if data.length > 32 then .error .tooManyBytes
  else
    match Field.ofCanonical? (ofBigEndian data) with
    | some x => .ok x
    | none => .error .notCanonical

/-- Reads a field element from digits behind `0x`, or from a natural number. -/
def field (raw : Json) : Except Refusal Field :=
  match raw.string?.bind hexDigits? with
  | some digits => fieldDigits digits
  | none => (natural raw).map Field.ofNat

def value (node : Node) (raw : Json) : Except Refusal Value := do
  match node with
  | .ascii =>
    let text ← string raw
    Refusal.checkAscii text
    return .ascii text
  | .utf8 => return .utf8 (← string raw)
  | .bytes => return .bytes (← bytes raw)
  | .uint width =>
    let n ← natural raw
    Refusal.checkBits n width.bits
    return .uint width (.ofNat 128 n)
  | .boolean => return .boolean (← boolean raw)
  | .base58 =>
    let text ← string raw
    Refusal.checkBase58 text
    return .base58 text
  | .isoDate => return .isoDate (← string raw)
  | .unixTime =>
    match raw.signed? with
    | some millis => return .unixTime (.ofInt millis)
    | none => throw (.wrongForm .integer raw)
  | .minaField => return .field (← field raw)
  | .minaUInt64 =>
    let n ← natural raw
    Refusal.checkBits n 64
    return .uint64 (.ofNat n)
  | .minaBool => return .bool (← boolean raw)
  | .minaString =>
    let text ← string raw
    Refusal.checkCircuitString text
    return .circuitString text
  | .minaSignature =>
    let text ← string raw
    Refusal.checkBase58 text
    return .signature text
  | .minaPublicKey =>
    let text ← string raw
    Refusal.checkBase58 text
    return .publicKey text
  | .minaFields =>
    match raw with
    | .array items => return .fields (← items.mapM field)
    | other => throw (.wrongForm .array other)
  | .iso3166Alpha2 =>
    let code ← string raw
    match Country.numeric? code with
    | some _ => return .countryCode code
    | none => throw (.unknownCountry code)
  | .iso3166Numeric =>
    let n ← natural raw
    if n < capacity 16 && Country.isNumeric (.ofNat n) then return .countryNumber (.ofNat n)
    else throw (.unknownCountryNumber n)

end Raw

/-- Reads a raw JSON value at a node. -/
def Value.ofJson (node : Node) (raw : Json) : Except ConversionError Value :=
  (Raw.value node raw).mapError (.invalidValue node)

end Circuitry
