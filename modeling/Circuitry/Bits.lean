/-!
# Bits

Integers of a fixed number of bits. Those of 16 and of 64 bits are the ones of the language; an
integer of 128 bits is a word. Every bound on numbers is stated by the number of values that their
bits have.
-/

namespace Circuitry

/-- The number of values of `bits` bits, which is also the least number that needs more. -/
def capacity (bits : Nat) : Nat :=
  Nat.pow 2 bits

/-- An unsigned integer of 128 bits. -/
abbrev Word := BitVec 128

/-- The word into which bytes are shifted one after another, most significant first. -/
def Word.ofBytes (data : List UInt8) : Word :=
  data.foldl (fun word b => word <<< 8 ||| b.toBitVec.setWidth 128) 0

end Circuitry
