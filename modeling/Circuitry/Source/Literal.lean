import Circuitry.Conversion.Value
import Circuitry.Json.Writer
import Circuitry.Program.Variable

/-!
# Literals of generated sources

The types of generated sources, and the literals that their constructors take: numbers as they
stand in the program, integers with the suffix of big integers, quoted text and truth values.
Quoted text escapes braces, so that a literal never reads as a placeholder.
-/

namespace Circuitry

inductive SourceType where
  | field
  | publicKey
  | uint64
  | bool
  | signature
  | circuitString
  deriving Repr, DecidableEq

namespace SourceType

def name : SourceType → String
  | .field => "Field"
  | .publicKey => "PublicKey"
  | .uint64 => "UInt64"
  | .bool => "Bool"
  | .signature => "Signature"
  | .circuitString => "CircuitString"

/-- The type in which a chain ends, without namespace, as schemas name it. -/
def typeName : SourceType → String
  | .field => "field"
  | .publicKey => "publickey"
  | .uint64 => "uint64"
  | .bool => "bool"
  | .signature => "signature"
  | .circuitString => "string"

def all : List SourceType :=
  [.field, .publicKey, .uint64, .bool, .signature, .circuitString]

/-- The type for the final type of a chain. -/
def ofTypeName? (name : String) : Option SourceType :=
  all.find? fun token => token.typeName == name

end SourceType

inductive Literal where
  /-- A number as the program spells it. -/
  | number (spelling : String)
  /-- An integer that a conversion produced. -/
  | bigInt (spelling : String)
  | text (value : String)
  | boolean (value : Bool)
  deriving Repr, DecidableEq

namespace Literal

def escapedChars (c : Char) : List Char :=
  if c = '\\' then ['\\', '\\']
  else if c = '"' then ['\\', '"']
  else if c = '\n' then ['\\', 'n']
  else if c = '\r' then ['\\', 'r']
  else if c = '\x7b' then ['\\', 'u', '0', '0', '7', 'b']
  else if c = '\x7d' then ['\\', 'u', '0', '0', '7', 'd']
  else [c]

def escape (s : String) : String :=
  String.ofList (s.toList.flatMap escapedChars)

def quote (s : String) : String :=
  "\"" ++ escape s ++ "\""

def boolWord (b : Bool) : String :=
  if b then "true" else "false"

def render : Literal → String
  | .number spelling => spelling
  | .bigInt spelling => spelling ++ "n"
  | .text value => quote value
  | .boolean b => boolWord b

/-- What a literal says, without suffix and quotes. -/
def content : Literal → String
  | .number spelling | .bigInt spelling | .text spelling => spelling
  | .boolean b => boolWord b

def ofScalar : Scalar → Literal
  | .number n => .number n.render
  | .text s => .text s
  | .boolean b => .boolean b

def integer (n : Int) : String :=
  (Number.integer n).render

/-- The literal of a converted value; lists of field elements have none. -/
def ofValue? : Value → Option Literal
  | .ascii s | .utf8 s | .base58 s | .isoDate s | .circuitString s | .signature s
  | .publicKey s | .countryCode s => some (.text s)
  | .bytes data => some (.bigInt ("0x" ++ Text.Hex.encode data))
  | .uint _ n => some (.bigInt n.toNat.repr)
  | .uint64 n => some (.bigInt n.toNat.repr)
  | .countryNumber n => some (.bigInt n.toNat.repr)
  | .unixTime millis => some (.bigInt (integer millis.toInt))
  | .field x =>
    match x.toUInt128? with
    | some n => some (.bigInt n.repr)
    | none => some (.bigInt x.toHex)
  | .boolean b | .bool b => some (.boolean b)
  | .fields _ => none

end Literal

end Circuitry
