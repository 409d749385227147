import Circuitry.Bits
import Circuitry.Json.Double
import Circuitry.Keyed

/-!
# JSON values

Documents, setup payloads and raw values are JSON. An object is a list of members in any order;
`canonical` puts the members of every object into the order of their keys. A number is an integer
when it was written as one and fits into sixty-four bits, and a double otherwise.
-/

namespace Circuitry

inductive Number where
  | integer (value : Int)
  | double (value : Double)
  deriving DecidableEq, Repr

inductive Json where
  | null
  | bool (value : Bool)
  | number (value : Number)
  | string (value : String)
  | array (items : List Json)
  | object (members : List (String × Json))
  deriving Repr, Inhabited

namespace Number

def unsigned? : Number → Option Nat
  | .integer n => if 0 ≤ n ∧ n < capacity 64 then some n.toNat else none
  | .double _ => none

def signed? : Number → Option Int
  | .integer n => if -capacity 63 ≤ n ∧ n < capacity 63 then some n else none
  | .double _ => none

end Number

namespace Json

def string? : Json → Option String
  | .string s => some s
  | _ => none

def items? : Json → Option (List Json)
  | .array items => some items
  | _ => none

def members? : Json → Option (List (String × Json))
  | .object members => some members
  | _ => none

def unsigned? : Json → Option Nat
  | .number n => n.unsigned?
  | _ => none

def signed? : Json → Option Int
  | .number n => n.signed?
  | _ => none

def get? (json : Json) (key : String) : Option Json :=
  match json with
  | .object members => members.lookup key
  | _ => none

def ofNat (n : Nat) : Json :=
  .number (.integer n)

mutual

/-- The same value with the members of every object in the order of their keys. -/
def canonical : Json → Json
  | .array items => .array (canonicalItems items)
  | .object members => .object (canonicalMembers members)
  | other => other

def canonicalItems : List Json → List Json
  | [] => []
  | item :: rest => item.canonical :: canonicalItems rest

def canonicalMembers : List (String × Json) → List (String × Json)
  | [] => []
  | (key, value) :: rest => Keyed.insert key value.canonical (canonicalMembers rest)

end

end Json

end Circuitry
