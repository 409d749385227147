/-!
# Conversion nodes

A raw value reaches its circuit type through a chain of conversions. The nodes of the conversion
graph are the kinds of value that a chain passes through; chains name them by fixed texts, with
`mina:` before the names of the circuit types.
-/

namespace Circuitry

inductive Width where
  | w16
  | w32
  | w64
  | w128
  deriving Repr, DecidableEq

def Width.bits : Width → Nat
  | .w16 => 16
  | .w32 => 32
  | .w64 => 64
  | .w128 => 128

def Width.bytes (width : Width) : Nat :=
  width.bits / 8

/-- A kind of value that a chain of conversions can pass through. -/
inductive Node where
  | ascii
  | utf8
  | bytes
  | uint (width : Width)
  | boolean
  | base58
  | isoDate
  | unixTime
  | minaField
  | minaUInt64
  | minaBool
  | minaString
  | minaSignature
  | minaPublicKey
  | minaFields
  /-- A two-letter country code. -/
  | iso3166Alpha2
  /-- A numeric country code. -/
  | iso3166Numeric
  deriving Repr, DecidableEq

namespace Node

def name : Node → String
  | .ascii => "ascii"
  | .utf8 => "utf8"
  | .bytes => "bytes"
  | .uint .w16 => "uint16"
  | .uint .w32 => "uint32"
  | .uint .w64 => "uint64"
  | .uint .w128 => "uint128"
  | .boolean => "boolean"
  | .base58 => "base58"
  | .isoDate => "isodate"
  | .unixTime => "unixtime"
  | .minaField => "mina:field"
  | .minaUInt64 => "mina:uint64"
  | .minaBool => "mina:bool"
  | .minaString => "mina:string"
  | .minaSignature => "mina:signature"
  | .minaPublicKey => "mina:publickey"
  | .minaFields => "mina:fields"
  | .iso3166Alpha2 => "iso3166alpha2"
  | .iso3166Numeric => "iso3166numeric"

def all : List Node :=
  [.ascii, .utf8, .bytes, .uint .w16, .uint .w32, .uint .w64, .uint .w128, .boolean, .base58,
    .isoDate, .unixTime, .minaField, .minaUInt64, .minaBool, .minaString, .minaSignature,
    .minaPublicKey, .minaFields, .iso3166Alpha2, .iso3166Numeric]

def ofName? (name : String) : Option Node :=
  all.find? fun node => node.name == name

def width? : Node → Option Width
  | .uint width => some width
  | _ => none

end Node

end Circuitry
