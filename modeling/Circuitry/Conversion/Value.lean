import Circuitry.Conversion.Field
import Circuitry.Conversion.Node
import Circuitry.Json.Basic
import Circuitry.Text.Hex

/-!
# Typed values

What a conversion chain passes on: a value together with the node it belongs to. Typed values are
written as JSON in a form that their own nodes read back: text as it is, bytes as digits, integers
of fixed width as decimal text, times and country numbers as integers, field elements as digits
behind `0x`.
-/

namespace Circuitry

/-- A value at a node of the conversion graph. -/
inductive Value where
  | ascii (text : String)
  | utf8 (text : String)
  | bytes (data : List UInt8)
  | uint (width : Width) (n : Word)
  | boolean (b : Bool)
  | base58 (text : String)
  | isoDate (text : String)
  /-- Milliseconds since the start of 1970. -/
  | unixTime (millis : Int64)
  | field (x : Field)
  | uint64 (n : UInt64)
  | bool (b : Bool)
  | circuitString (text : String)
  | signature (text : String)
  | publicKey (text : String)
  | fields (xs : List Field)
  | countryCode (code : String)
  | countryNumber (number : UInt16)
  deriving Repr, DecidableEq

namespace Value

def node : Value → Node
  | .ascii _ => .ascii
  | .utf8 _ => .utf8
  | .bytes _ => .bytes
  | .uint width _ => .uint width
  | .boolean _ => .boolean
  | .base58 _ => .base58
  | .isoDate _ => .isoDate
  | .unixTime _ => .unixTime
  | .field _ => .minaField
  | .uint64 _ => .minaUInt64
  | .bool _ => .minaBool
  | .circuitString _ => .minaString
  | .signature _ => .minaSignature
  | .publicKey _ => .minaPublicKey
  | .fields _ => .minaFields
  | .countryCode _ => .iso3166Alpha2
  | .countryNumber _ => .iso3166Numeric

def toJson : Value → Json
  | .ascii text | .utf8 text | .base58 text | .isoDate text | .circuitString text
  | .signature text | .publicKey text | .countryCode text => .string text
  | .bytes data => .string (Text.Hex.encode data)
  | .uint _ n => .string n.toNat.repr
  | .uint64 n => .string n.toNat.repr
  | .boolean b | .bool b => .bool b
  | .unixTime millis => .number (.integer millis.toInt)
  | .field x => .string x.toHex
  | .fields xs => .array (xs.map fun x => .string x.toHex)
  | .countryNumber number => .ofNat number.toNat

end Value

end Circuitry
