import Circuitry.Calendar
import Circuitry.Conversion.Link
import Circuitry.Conversion.Raw

/-!
# The conversion graph

The edges between the nodes, and the chains that follow them. A conversion keeps what the value
means or refuses it: no edge wraps a number, cuts a text or drops bytes. A chain reads its raw
value at the source of its first link and follows its links in order.
-/

namespace Circuitry

/-- A list of the given length: the first items, and `fill` as often as some are missing. -/
def resized {α : Type} (length : Nat) (fill : α) (items : List α) : List α :=
  items.take length ++ List.replicate (length - items.length) fill

namespace Value

def textOfBytes (data : List UInt8) : Except Refusal String :=
  (Text.Utf8.decode data).mapError .utf8

def fitted (width : Width) (n : Word) : Except Refusal Value := do
  Refusal.checkBits n.toNat width.bits
  return .uint width n

def uintOfBytes (width : Width) (data : List UInt8) : Except Refusal Value :=
  if data.length * 8 > width.bits then .error (.bytesTooWide data.length width.bits)
  else .ok (.uint width (.ofBytes data))

/-- The code points of a text and zeros behind them, as many as a circuit string has characters. -/
def characterFields (text : String) : List Field :=
  resized circuitStringLength (Field.ofNat 0) (text.toList.map fun c => Field.ofNat c.toNat)

/-- Follows the edge to `target`: nothing if there is none, and otherwise the value at the target
or the reason why it is refused. -/
def edge? (value : Value) (target : Node) : Option (Except Refusal Value) :=
  match value with
  | .ascii text =>
    match target with
    | .bytes => some (.ok (.bytes (Text.Utf8.encode text)))
    | .utf8 => some (.ok (.utf8 text))
    | .boolean => some ((Raw.boolean (.string text)).map .boolean)
    | .minaString => some ((Refusal.checkCircuitString text).map fun _ => .circuitString text)
    | _ => none
  | .utf8 text =>
    match target with
    | .bytes => some (.ok (.bytes (Text.Utf8.encode text)))
    | .ascii => some ((Refusal.checkAscii text).map fun _ => .ascii text)
    | .boolean => some ((Raw.boolean (.string text)).map .boolean)
    | .minaString => some ((Refusal.checkCircuitString text).map fun _ => .circuitString text)
    | _ => none
  | .bytes data =>
    match target with
    | .ascii => some do
      let text ← textOfBytes data
      Refusal.checkAscii text
      return .ascii text
    | .utf8 => some ((textOfBytes data).map .utf8)
    | .uint width => some (uintOfBytes width data)
    | _ => none
  | .uint source n =>
    match target with
    | .bytes => some (.ok (.bytes (bigEndian source.bytes n.toNat)))
    | .uint width => some (fitted width n)
    | .minaField => some (.ok (.field (Field.ofNat n.toNat)))
    | .minaUInt64 => some ((Refusal.checkBits n.toNat 64).map fun _ => .uint64 (.ofNat n.toNat))
    | _ => none
  | .boolean b =>
    match target with
    | .minaBool => some (.ok (.bool b))
    | .uint width => some (.ok (.uint width (.ofNat 128 b.toNat)))
    | _ => none
  | .base58 text =>
    match target with
    | .minaSignature => some (.ok (.signature text))
    | .minaPublicKey => some (.ok (.publicKey text))
    | _ => none
  | .unixTime millis =>
    match target with
    | .uint width => some (if millis.toInt < 0 then .error (.negativeTime millis.toInt)
        else fitted width (.ofNat 128 millis.toInt.toNat))
    | _ => none
  | .field x =>
    match target with
    | .minaUInt64 =>
      some (if x.val < capacity 64 then .ok (.uint64 (.ofNat x.val)) else .error .fieldOverflow)
    | .minaFields => some (.ok (.fields [x]))
    | _ => none
  | .uint64 n =>
    match target with
    | .minaField => some (.ok (.field (Field.ofNat n.toNat)))
    | .minaFields => some (.ok (.fields [Field.ofNat n.toNat]))
    | _ => none
  | .bool b =>
    match target with
    | .minaField => some (.ok (.field (Field.ofNat b.toNat)))
    | .minaFields => some (.ok (.fields [Field.ofNat b.toNat]))
    | _ => none
  | .circuitString text =>
    match target with
    | .minaFields => some (.ok (.fields (characterFields text)))
    | _ => none
  | .countryCode code =>
    match target with
    | .iso3166Numeric =>
      some (match Country.numeric? code with
        | some number => .ok (.countryNumber number)
        | none => .error (.unknownCountry code))
    | _ => none
  | .countryNumber number =>
    match target with
    | .uint width => some (fitted width (.ofNat 128 number.toNat))
    | _ => none
  | .isoDate _ | .signature _ | .publicKey _ | .fields _ => none

/-- Follows one edge of the graph. A date that cannot be read is refused by its own node, every
other value by the target. -/
def convert (value : Value) (target : Node) : Except ConversionError Value :=
  match value, target with
  | .isoDate text, .unixTime =>
    match Calendar.millis? text with
    | some millis => .ok (.unixTime (.ofInt millis))
    | none => .error (.invalidValue .isoDate (.notADate text))
  | value, target =>
    match value.edge? target with
    | some result => result.mapError (.invalidValue target)
    | none => .error (.unsupported value.node target)

def follow (value : Value) (link : Link) : Except ConversionError Value := do
  let source ← Node.parse link.source
  let target ← Node.parse link.target
  if value.node = source then value.convert target
  else throw (.mismatch source value.node)

end Value

abbrev Converter := Json → List Link → Except ConversionError Value

def Value.ofChain : Converter := fun raw links =>
  match links with
  | [] => .error .emptyChain
  | first :: _ => do
    let node ← Node.parse first.source
    let value ← Value.ofJson node raw
    links.foldlM Value.follow value

end Circuitry
