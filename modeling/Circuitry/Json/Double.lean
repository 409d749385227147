/-!
# Finite binary floating-point numbers

Numbers with a fraction or an exponent, and integers beyond sixty-four bits, are held as finite
doubles: a sign and the rank of the magnitude among the non-negative doubles, which is its bit
pattern read as a number. Everything here is exact arithmetic on natural numbers. Main
definitions: the ratio that a double denotes, the double nearest to a decimal, a tie going to the
even neighbour, and the power of ten by which a double is scaled, with a rounding at each step.
-/

namespace Circuitry

/-- The number of doubles from one power of two to the next. -/
def Double.binade : Nat := 4503599627370496

/-- The number of finite doubles that are not negative. -/
def Double.count : Nat := 2047 * binade

/-- A finite double. -/
structure Double where
  /-- Whether the sign is negative; zero has both signs. -/
  negative : Bool
  /-- The position of the magnitude among the non-negative doubles. -/
  rank : Fin Double.count
  deriving DecidableEq, Repr

structure Decimal where
  digits : Nat
  exponent : Int
  deriving DecidableEq, Repr

namespace Decimal

def ratio (d : Decimal) : Nat × Nat :=
  if d.exponent ≥ 0 then (d.digits * Nat.pow 10 d.exponent.toNat, 1)
  else (d.digits, Nat.pow 10 (-d.exponent).toNat)

/-- The number of decimal digits of a natural number, one for zero. -/
def width (n : Nat) : Nat :=
  (Nat.toDigits 10 n).length

end Decimal

namespace Double

/-- The quotient rounded to the nearest integer, a tie going to the even one. -/
def roundDiv (num den : Nat) : Nat :=
  let q := num / den
  let r := num % den
  if 2 * r > den ∨ (2 * r = den ∧ q % 2 = 1) then q + 1 else q

def floorLog2 (num den : Nat) : Int :=
  let guess : Int := (num.log2 : Int) - den.log2
  let reached : Bool :=
    if guess ≥ 0 then den * Nat.pow 2 guess.toNat ≤ num
    else den ≤ num * Nat.pow 2 (-guess).toNat
  if reached then guess else guess - 1

/-- The rank of the double nearest to the positive fraction `num / den`. A rank beyond the last
finite double means that the fraction is too large. -/
def nearestRank (num den : Nat) : Nat :=
  let unit : Int := max (floorLog2 num den - 52) (-1074)
  let significand :=
    if unit ≥ 0 then roundDiv num (den * Nat.pow 2 unit.toNat)
    else roundDiv (num * Nat.pow 2 (-unit).toNat) den
  (unit + 1074).toNat * binade + significand

/-- The rank of the double nearest to a decimal. A decimal whose magnitude is far outside the
range of doubles is settled by its number of digits alone. -/
def decimalRank (d : Decimal) : Nat :=
  let scale : Int := Decimal.width d.digits + d.exponent
  if d.digits = 0 ∨ scale < -400 then 0
  else if scale > 400 then count
  else nearestRank d.ratio.1 d.ratio.2

def ofDecimal? (negative : Bool) (d : Decimal) : Option Double :=
  if h : decimalRank d < count then some ⟨negative, ⟨decimalRank d, h⟩⟩ else none

/-- The significand: the magnitude is `significand * 2 ^ unit`. -/
def significand (x : Double) : Nat :=
  if x.rank.val < binade then x.rank.val else x.rank.val % binade + binade

def unit (x : Double) : Int :=
  max (x.rank.val / binade : Nat) 1 - 1075

def ratio (x : Double) : Nat × Nat :=
  if x.unit ≥ 0 then (x.significand * Nat.pow 2 x.unit.toNat, 1)
  else (x.significand, Nat.pow 2 (-x.unit).toNat)

def wholeMagnitude? (x : Double) : Option Nat :=
  if x.ratio.1 % x.ratio.2 = 0 then some (x.ratio.1 / x.ratio.2) else none

def natural? (x : Double) : Option Nat :=
  if x.negative && x.rank.val != 0 then none else x.wholeMagnitude?

/-! ### Scaling -/

/-- The double nearest to a fraction, and nothing if that is infinite. -/
def ofRatio? (negative : Bool) (num den : Nat) : Option Double :=
  let rank := if num = 0 then 0 else nearestRank num den
  if h : rank < count then some ⟨negative, ⟨rank, h⟩⟩ else none

/-- The product with a double that is not negative, rounded. -/
def times? (x factor : Double) : Option Double :=
  ofRatio? x.negative (x.ratio.1 * factor.ratio.1) (x.ratio.2 * factor.ratio.2)

/-- The quotient by a double that is positive, rounded. -/
def over? (x divisor : Double) : Option Double :=
  ofRatio? x.negative (x.ratio.1 * divisor.ratio.2) (x.ratio.2 * divisor.ratio.1)

/-- The exponent of the largest power of ten that a double is divided by at once. -/
def maxPlaces : Nat := 308

/-- Divides by a power of ten, in several steps if there is no such double. -/
def lowered? (x : Double) (places : Nat) : Option Double :=
  if places ≤ maxPlaces then do x.over? (← ofDecimal? false ⟨1, places⟩)
  else if x.rank.val = 0 then some x
  else do
    let next ← x.over? (← ofDecimal? false ⟨1, maxPlaces⟩)
    next.lowered? (places - maxPlaces)
termination_by places
decreasing_by
  simp only [maxPlaces] at *
  omega

/-- Multiplies by a power of ten, and nothing if the result is infinite. -/
def scaled? (x : Double) (exponent : Int) : Option Double :=
  if exponent < 0 then x.lowered? (-exponent).toNat
  else if x.rank.val = 0 then some x
  else do x.times? (← ofDecimal? false ⟨1, exponent⟩)

/-! ### The shortest decimal -/

def floorLog10 (num den : Nat) : Int :=
  if den ≤ num then (Decimal.width (num / den) : Int) - 1
  else -(Decimal.width ((den + num - 1) / num - 1) : Int)

/-- The nearer of the two neighbours of the magnitude among the multiples of `10 ^ exponent`,
out of those that read back; a tie goes to the even one. -/
def neighbour? (x : Double) (exponent : Int) : Option Decimal :=
  let num := if exponent ≥ 0 then x.ratio.1 else x.ratio.1 * Nat.pow 10 (-exponent).toNat
  let den := if exponent ≥ 0 then x.ratio.2 * Nat.pow 10 exponent.toNat else x.ratio.2
  let below : Decimal := ⟨num / den, exponent⟩
  let above : Decimal := ⟨num / den + 1, exponent⟩
  match decimalRank below == x.rank.val, decimalRank above == x.rank.val with
  | true, true => if roundDiv num den = num / den then some below else some above
  | true, false => some below
  | false, true => some above
  | false, false => none

/-- The decimal with the fewest digits that reads back as the magnitude, the nearest of those. -/
def shortest (x : Double) : Decimal :=
  let lead := floorLog10 x.ratio.1 x.ratio.2
  let found := (List.range 17).findSome? fun (extra : Nat) => x.neighbour? (lead - extra)
  found.getD ⟨0, 0⟩

end Double

end Circuitry
