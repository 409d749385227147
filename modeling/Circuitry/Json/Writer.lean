import Circuitry.Json.Basic
import Circuitry.Text.Hex

/-!
# JSON as text

Two layouts: compact text without any space, which messages and literals embed, and indented text
for files. Strings escape the quote, the backslash and the control characters below the space.
An integer is written in decimal; a double with the fewest digits that read back, positionally
while its leading digit stands between the fifth place after the point and the sixteenth before
it, and with an exponent otherwise.
-/

namespace Circuitry

/-- Digits without their trailing zeros, and how many were dropped. -/
def Decimal.trimmed (d : Decimal) : List Char × Int :=
  let digits := Nat.toDigits 10 d.digits
  let kept := (digits.reverse.dropWhile (· == '0')).reverse
  (kept, d.exponent + (digits.length - kept.length : Nat))

/-- The decimal that `digits * 10 ^ exponent` denotes, in the notation of a JSON number. -/
def Decimal.render (digits : List Char) (exponent : Int) : List Char :=
  let lead : Int := exponent + digits.length - 1
  if -5 ≤ lead ∧ lead < 16 then
    if exponent ≥ 0 then digits ++ List.replicate exponent.toNat '0' ++ ['.', '0']
    else if lead ≥ 0 then digits.take (lead.toNat + 1) ++ ['.'] ++ digits.drop (lead.toNat + 1)
    else ['0', '.'] ++ List.replicate (-lead - 1).toNat '0' ++ digits
  else
    let fraction := if digits.length ≤ 1 then [] else '.' :: digits.drop 1
    let sign := if lead ≥ 0 then '+' else '-'
    digits.take 1 ++ fraction ++ ['e', sign] ++ Nat.toDigits 10 lead.natAbs

def Double.render (x : Double) : String :=
  let sign := if x.negative then ['-'] else []
  if x.rank.val = 0 then String.ofList (sign ++ ['0', '.', '0'])
  else
    let (digits, exponent) := x.shortest.trimmed
    String.ofList (sign ++ Decimal.render digits exponent)

def Number.render : Number → String
  | .integer n => if n < 0 then "-" ++ n.natAbs.repr else n.natAbs.repr
  | .double x => x.render

namespace Json

def escapedChars (c : Char) : List Char :=
  if c = '"' then ['\\', '"']
  else if c = '\\' then ['\\', '\\']
  else if c = '\n' then ['\\', 'n']
  else if c = '\r' then ['\\', 'r']
  else if c = '\t' then ['\\', 't']
  else if c = '\x08' then ['\\', 'b']
  else if c = '\x0c' then ['\\', 'f']
  else if c.toNat < 0x20 then
    ['\\', 'u', '0', '0', Text.Hex.digit (c.toNat / 16), Text.Hex.digit (c.toNat % 16)]
  else [c]

def renderString (s : String) : String :=
  String.ofList ('"' :: (s.toList.flatMap escapedChars ++ ['"']))

mutual

/-- The text of a value without any space. -/
def compact : Json → String
  | .null => "null"
  | .bool b => if b then "true" else "false"
  | .number n => n.render
  | .string s => renderString s
  | .array items => "[" ++ ",".intercalate (compactItems items) ++ "]"
  | .object members => "\x7b" ++ ",".intercalate (compactMembers members) ++ "\x7d"

def compactItems : List Json → List String
  | [] => []
  | item :: rest => item.compact :: compactItems rest

def compactMembers : List (String × Json) → List String
  | [] => []
  | (key, value) :: rest => (renderString key ++ ":" ++ value.compact) :: compactMembers rest

end

/-- The start of a line at the given nesting depth: two spaces for each level. -/
def newLine (depth : Nat) : String :=
  "\n" ++ String.ofList (List.replicate (2 * depth) ' ')

/-- Lines between an opening and a closing bracket, which stand together when there are none. -/
def bracketed (opening closing : String) (depth : Nat) (lines : List String) : String :=
  if lines.isEmpty then opening ++ closing
  else
    opening ++ newLine (depth + 1) ++ ("," ++ newLine (depth + 1)).intercalate lines ++
      newLine depth ++ closing

mutual

def prettyAt (depth : Nat) : Json → String
  | .array items => bracketed "[" "]" depth (prettyItems (depth + 1) items)
  | .object members => bracketed "\x7b" "\x7d" depth (prettyMembers (depth + 1) members)
  | other => other.compact

def prettyItems (depth : Nat) : List Json → List String
  | [] => []
  | item :: rest => item.prettyAt depth :: prettyItems depth rest

def prettyMembers (depth : Nat) : List (String × Json) → List String
  | [] => []
  | (key, value) :: rest =>
    (renderString key ++ ": " ++ value.prettyAt depth) :: prettyMembers depth rest

end

/-- The text of a value with one member or item on each line. -/
def pretty (json : Json) : String :=
  json.prettyAt 0

end Json

end Circuitry
