import Circuitry.Bits
import Circuitry.Text.Hex

/-!
# Field elements

The scalars of the circuits are the elements of the prime field of the Pallas curve. An element
is held as its canonical representative and written as thirty-two bytes, most significant first.
-/

namespace Circuitry

/-- The number that bytes denote, most significant first. -/
def ofBigEndian (bytes : List UInt8) : Nat :=
  bytes.foldl (fun n b => n * 256 + b.toNat) 0

def bigEndian : (count : Nat) → Nat → List UInt8
  | 0, _ => []
  | count + 1, n => UInt8.ofNat (n / Nat.pow 256 count) :: bigEndian count n

def Field.modulus : Nat :=
  0x40000000000000000000000000000000224698fc094cf91b992d30ed00000001

/-- A field element, as its canonical representative. -/
abbrev Field := Fin Field.modulus

namespace Field

def ofNat (n : Nat) : Field :=
  ⟨n % modulus, Nat.mod_lt _ (by decide)⟩

/-- The element with the given canonical representative, if it is below the modulus. -/
def ofCanonical? (n : Nat) : Option Field :=
  if h : n < modulus then some ⟨n, h⟩ else none

def toUInt128? (x : Field) : Option Nat :=
  if x.val < capacity 128 then some x.val else none

/-- An element as `0x` and sixty-four digits. -/
def toHex (x : Field) : String :=
  "0x" ++ Text.Hex.encode (bigEndian 32 x.val)

end Field

end Circuitry
