import Circuitry.Text.Blank

/-!
# Dates and timestamps

Dates of the proleptic Gregorian calendar and instants in milliseconds since the start of 1970,
with two readers. A timestamp has a date of fixed width, a time of day and an offset from
universal time; the second 60 is accepted and counts as the next second, and digits of a fraction
beyond the millisecond are dropped. A bare date has a year with an optional sign (four digits at
most without one), a month and a day of one or two digits, and blanks are allowed before each
number.
-/

namespace Circuitry

structure Date where
  year : Int
  month : Nat
  day : Nat
  deriving Repr, DecidableEq

namespace Date

def isLeapYear (year : Int) : Bool :=
  year % 4 == 0 && (year % 100 != 0 || year % 400 == 0)

def daysInMonth (year : Int) (month : Nat) : Nat :=
  match month with
  | 2 => if isLeapYear year then 29 else 28
  | 4 | 6 | 9 | 11 => 30
  | _ => 31

/-- Whether the calendar has the date, in the years that it covers. -/
def isValid (date : Date) : Bool :=
  -262143 ≤ date.year && date.year ≤ 262142 &&
    1 ≤ date.month && date.month ≤ 12 &&
    1 ≤ date.day && date.day ≤ daysInMonth date.year date.month

def daysBeforeMonth (year : Int) (month : Nat) : Nat :=
  (List.range (month - 1)).foldl (fun days m => days + daysInMonth year (m + 1)) 0

/-- The number of days from the first day of the year 1 to the first day of a year. -/
def daysBeforeYear (year : Int) : Int :=
  let past := year - 1
  365 * past + past / 4 - past / 100 + past / 400

def epochDays (date : Date) : Int :=
  daysBeforeYear date.year - daysBeforeYear 1970 + daysBeforeMonth date.year date.month +
    date.day - 1

def millis (date : Date) : Int :=
  86400000 * date.epochDays

end Date

namespace Calendar

/-- Reads between `least` and `most` digits. -/
def digits? (least most : Nat) (cs : List Char) : Option (Nat × List Char) :=
  let digits := (cs.take most).takeWhile Char.isDigit
  if digits.length < least then none
  else some (Nat.ofDigitChars 10 digits 0, cs.drop digits.length)

def char? (c : Char) : List Char → Option (List Char)
  | d :: rest => if d = c then some rest else none
  | [] => none

/-! ### Timestamps -/

/-- Reads the fraction of a second, if there is one, in milliseconds. -/
def fraction? : List Char → Option (Nat × List Char)
  | '.' :: rest =>
    let digits := rest.takeWhile Char.isDigit
    if digits.isEmpty then none
    else some (Nat.ofDigitChars 10 ((digits ++ ['0', '0']).take 3) 0, rest.drop digits.length)
  | rest => some (0, rest)

def offset? : List Char → Option (Int × List Char)
  | [] => none
  | c :: rest =>
    if c = 'Z' ∨ c = 'z' then some (0, rest)
    else if c = '+' ∨ c = '-' ∨ c = '−' then do
      let (hours, rest) ← digits? 2 2 rest
      let rest ← char? ':' rest
      let (minutes, rest) ← digits? 2 2 rest
      if hours ≤ 23 ∧ minutes ≤ 59 then
        let total : Int := hours * 60 + minutes
        some (if c = '+' then total else -total, rest)
      else none
    else none

def timestamp? (cs : List Char) : Option Int := do
  let (year, cs) ← digits? 4 4 cs
  let cs ← char? '-' cs
  let (month, cs) ← digits? 2 2 cs
  let cs ← char? '-' cs
  let (day, cs) ← digits? 2 2 cs
  let cs ← char? 'T' cs <|> char? 't' cs <|> char? ' ' cs
  let (hour, cs) ← digits? 2 2 cs
  let cs ← char? ':' cs
  let (minute, cs) ← digits? 2 2 cs
  let cs ← char? ':' cs
  let (second, cs) ← digits? 2 2 cs
  let (millis, cs) ← fraction? cs
  let (offset, cs) ← offset? cs
  let date : Date := ⟨year, month, day⟩
  if cs.isEmpty && date.isValid && hour ≤ 23 && minute ≤ 59 && second ≤ 60 then
    let ofDay : Int := ((hour * 60 + minute) * 60 + second) * 1000 + millis
    some (date.millis + ofDay - offset * 60000)
  else none

/-! ### Bare dates -/

def skipBlanks (cs : List Char) : List Char :=
  cs.dropWhile Text.isBlank

def year? (cs : List Char) : Option (Int × List Char) :=
  match cs with
  | '-' :: rest => (digits? 1 rest.length rest).map fun (n, rest) => (-(n : Int), rest)
  | '+' :: rest => (digits? 1 rest.length rest).map fun (n, rest) => ((n : Int), rest)
  | rest => (digits? 1 4 rest).map fun (n, rest) => ((n : Int), rest)

/-- Reads a bare date, which means its first millisecond. -/
def date? (cs : List Char) : Option Int := do
  let (year, cs) ← year? (skipBlanks cs)
  let cs ← char? '-' cs
  let (month, cs) ← digits? 1 2 (skipBlanks cs)
  let cs ← char? '-' cs
  let (day, cs) ← digits? 1 2 (skipBlanks cs)
  let date : Date := ⟨year, month, day⟩
  if cs.isEmpty && date.isValid then some date.millis else none

/-- Reads a timestamp or a bare date as milliseconds since the start of 1970. -/
def millis? (text : String) : Option Int :=
  timestamp? text.toList <|> date? text.toList

end Calendar

end Circuitry
