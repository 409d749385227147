import Circuitry.Conversion.Node
import Circuitry.Json.Writer
import Circuitry.Text.Quoted
import Circuitry.Text.Utf8

/-!
# Why a conversion fails

A failing conversion names its cause. Values that are refused carry the reason apart from the
node that refused them; the wording of both is fixed here and nowhere else.
-/

namespace Circuitry

inductive RawForm where
  | string
  | boolean
  | unsignedInteger
  | integer
  | hexOrBytes
  | array
  deriving Repr, DecidableEq

def RawForm.name : RawForm → String
  | .string => "string"
  | .boolean => "boolean"
  | .unsignedInteger => "unsigned integer"
  | .integer => "integer"
  | .hexOrBytes => "hex string or byte array"
  | .array => "array"

inductive Refusal where
  | wrongForm (expected : RawForm) (found : Json)
  | notAscii (text : String)
  | emptyBase58
  | notBase58 (c : Char)
  | tooLong (length most : Nat)
  | overflow (n bits : Nat)
  | notAByte (item : Json)
  | hex (cause : Text.Hex.Error)
  | tooManyBytes
  | notCanonical
  | unknownCountry (code : String)
  | unknownCountryNumber (number : Nat)
  | utf8 (cause : Text.Utf8.Error)
  | bytesTooWide (count bits : Nat)
  | negativeTime (millis : Int)
  | fieldOverflow
  | notADate (text : String)

def Text.Hex.Error.message : Text.Hex.Error → String
  | .oddLength => "Odd number of digits"
  | .badDigit byte position =>
    s!"Invalid character {Text.quotedChar (Char.ofNat byte.toNat)} at position {position}"

def Refusal.message : Refusal → String
  | .wrongForm expected found => s!"expected {expected.name}, got {found.compact}"
  | .notAscii text => s!"{Text.quoted text} is not ascii"
  | .emptyBase58 => "empty base58 string"
  | .notBase58 c => s!"invalid base58 character {Text.quotedChar c}"
  | .tooLong length most => s!"{length} characters exceed the maximum of {most}"
  | .overflow n bits => s!"{n} overflows {bits} bits"
  | .notAByte item => s!"{item.compact} is not a byte"
  | .hex cause => cause.message
  | .tooManyBytes => "more than 32 bytes"
  | .notCanonical => "not a canonical field element"
  | .unknownCountry code => s!"unknown country code {Text.quoted code}"
  | .unknownCountryNumber number => s!"unknown country code {number}"
  | .utf8 cause => cause.message
  | .bytesTooWide count bits => s!"{count} bytes do not fit in {bits} bits"
  | .negativeTime millis => s!"negative timestamp {millis}"
  | .fieldOverflow => "field element overflows 64 bits"
  | .notADate text => s!"{text} is not an ISO 8601 date"

inductive ConversionError where
  /-- The text is no pair of nodes. -/
  | invalidLink (text : String)
  | unknownNode (name : String)
  /-- The graph has no edge between the nodes. -/
  | unsupported (source target : Node)
  /-- A link starts at another node than the chain has reached. -/
  | mismatch (expected found : Node)
  | invalidValue (node : Node) (reason : Refusal)
  | emptyChain

def ConversionError.message : ConversionError → String
  | .invalidLink text => s!"Invalid conversion link: {text}"
  | .unknownNode name => s!"Unknown conversion node type: {name}"
  | .unsupported source target => s!"Unsupported conversion: {source.name} -> {target.name}"
  | .mismatch expected found =>
    s!"Conversion chain mismatch: expected {expected.name} input, got {found.name}"
  | .invalidValue node reason => s!"Invalid {node.name} value: {reason.message}"
  | .emptyChain => "Conversion chain must not be empty"

/-- The node with the given name, or the failure to find one. -/
def Node.parse (name : String) : Except ConversionError Node :=
  match Node.ofName? name with
  | some node => .ok node
  | none => .error (.unknownNode name)

end Circuitry
