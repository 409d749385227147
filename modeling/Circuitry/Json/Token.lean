import Circuitry.Json.Basic
import Circuitry.Text.Hex

/-!
# JSON tokens

A text is cut into brackets, separators, strings, numbers and the three words by a machine that
looks at one character at a time. The grammar is the strict one: no leading zeros, no control
characters inside strings, surrogate escapes only in pairs.

The value of a decimal is computed in sixty-four bits. Its digits are put together as long as they
fit, and what they make is scaled by a power of ten, with a rounding at each step. So the double
that is read is close to the decimal but not always the nearest one: `9007199254740991.0` is read
as `9007199254740990`.
-/

namespace Circuitry.Json

inductive Token where
  | openArray
  | closeArray
  | openObject
  | closeObject
  | comma
  | colon
  /-- A string, which may be a value or a key. -/
  | text (value : String)
  /-- A number or one of the words. -/
  | scalar (value : Json)

inductive Reason where
  /-- Something stands where it cannot stand. -/
  | unexpected
  /-- The text ends before the document does. -/
  | unfinished
  | outOfRange
  | tooDeep
  deriving Repr, DecidableEq

def Reason.message : Reason → String
  | .unexpected => "unexpected character"
  | .unfinished => "EOF while parsing a value"
  | .outOfRange => "number out of range"
  | .tooDeep => "recursion limit exceeded"

/-- A place in a text. Lines, and the bytes of a line, are counted from one. -/
structure Position where
  line : Nat
  column : Nat
  deriving Repr, DecidableEq

def Position.after (position : Position) (c : Char) : Position :=
  if c = '\n' then ⟨position.line + 1, 1⟩ else ⟨position.line, position.column + c.utf8Size⟩

structure Fault where
  reason : Reason
  position : Position
  deriving Repr, DecidableEq

def Fault.message (fault : Fault) : String :=
  fault.reason.message ++ " at line " ++ fault.position.line.repr ++ " column " ++
    fault.position.column.repr

/-! ### Numbers -/

/-- A number cut into its parts: sign, integer digits, fraction digits and exponent. -/
structure NumberParts where
  negative : Bool
  whole : List Char
  fraction : Option (List Char)
  exponent : Option Int

def exponent? (cs : List Char) : Option Int :=
  let (negative, digits) := match cs with
    | '-' :: rest => (true, rest)
    | '+' :: rest => (false, rest)
    | rest => (false, rest)
  if digits.isEmpty || !digits.all Char.isDigit then none
  else
    let n : Int := Nat.ofDigitChars 10 digits 0
    some (if negative then -n else n)

def numberParts? (cs : List Char) : Option NumberParts := do
  let (negative, cs) := match cs with
    | '-' :: rest => (true, rest)
    | rest => (false, rest)
  let whole := cs.takeWhile Char.isDigit
  let cs := cs.dropWhile Char.isDigit
  if whole.isEmpty || (whole.length > 1 && whole.head? == some '0') then none
  let (fraction, cs) := match cs with
    | '.' :: rest => (some (rest.takeWhile Char.isDigit), rest.dropWhile Char.isDigit)
    | rest => (none, rest)
  if fraction == some [] then none
  match cs with
  | [] => return ⟨negative, whole, fraction, none⟩
  | mark :: rest =>
    if mark = 'e' ∨ mark = 'E' then return ⟨negative, whole, fraction, some (← exponent? rest)⟩
    else none

/-- Puts digits behind a number as long as the result fits into sixty-four bits, and leaves the
others. -/
def absorb (n : Nat) : List Char → Nat × List Char
  | [] => (n, [])
  | digit :: rest =>
    let next := n * 10 + (digit.toNat - '0'.toNat)
    if next < capacity 64 then absorb next rest else (n, digit :: rest)

/-- Reads a number. Without fraction and exponent it is an integer if it fits into sixty-four
bits and is not a negative zero; every other number is a double. -/
def readNumber (cs : List Char) : Except Reason Number := do
  let some parts := numberParts? cs | throw .unexpected
  let (n, dropped) := absorb 0 parts.whole
  let isInteger := parts.fraction.isNone && parts.exponent.isNone && dropped.isEmpty
  if isInteger && !parts.negative then return .integer n
  if isInteger && 0 < n && n ≤ capacity 63 then return .integer (-n)
  let fraction := parts.fraction.getD []
  let (significand, ignored) := absorb n fraction
  -- Digits behind the point lower the exponent only if they were put to the others.
  let exponent : Int :=
    parts.exponent.getD 0 + dropped.length + ignored.length - fraction.length
  match (Double.ofRatio? parts.negative significand 1).bind (·.scaled? exponent) with
  | some x => return .double x
  | none => throw .outOfRange

def readWord (cs : List Char) : Except Reason Json :=
  if cs = ['n', 'u', 'l', 'l'] then .ok .null
  else if cs = ['t', 'r', 'u', 'e'] then .ok (.bool true)
  else if cs = ['f', 'a', 'l', 's', 'e'] then .ok (.bool false)
  else .error .unexpected

/-! ### The machine -/

/-- What the machine is reading. The characters seen so far are held in reverse. -/
inductive Scan where
  /-- Between two tokens. -/
  | idle
  | number (seen : List Char)
  | word (seen : List Char)
  | string (seen : List Char)
  /-- After a backslash. -/
  | escape (seen : List Char)
  /-- Inside a code unit of four digits, `high` being the half of a pair before it. -/
  | unit (seen : List Char) (high : Option Nat) (count value : Nat)
  /-- After the first half of a pair, before the backslash of the second. -/
  | pair (seen : List Char) (high : Nat)
  /-- After the backslash between the halves of a pair. -/
  | pairEscape (seen : List Char) (high : Nat)

def isNumberChar (c : Char) : Bool :=
  c.isDigit || c == '-' || c == '+' || c == '.' || c == 'e' || c == 'E'

def isSpace (c : Char) : Bool :=
  c == ' ' || c == '\t' || c == '\n' || c == '\r'

def Scan.start (c : Char) : Except Reason (Scan × List Token) :=
  if isSpace c then .ok (.idle, [])
  else if c = '[' then .ok (.idle, [.openArray])
  else if c = ']' then .ok (.idle, [.closeArray])
  else if c = '\x7b' then .ok (.idle, [.openObject])
  else if c = '\x7d' then .ok (.idle, [.closeObject])
  else if c = ',' then .ok (.idle, [.comma])
  else if c = ':' then .ok (.idle, [.colon])
  else if c = '"' then .ok (.string [], [])
  else if c.isDigit || c == '-' then .ok (.number [c], [])
  else if c.isAlpha then .ok (.word [c], [])
  else .error .unexpected

def Scan.finish : Scan → Except Reason (List Token)
  | .idle => .ok []
  | .number seen => return [.scalar (.number (← readNumber seen.reverse))]
  | .word seen => return [.scalar (← readWord seen.reverse)]
  | _ => .error .unfinished

def shortEscape? (c : Char) : Option Char :=
  if c = '"' ∨ c = '\\' ∨ c = '/' then some c
  else if c = 'b' then some '\x08'
  else if c = 'f' then some '\x0c'
  else if c = 'n' then some '\n'
  else if c = 'r' then some '\r'
  else if c = 't' then some '\t'
  else none

/-- A complete code unit: a character, the first half of a pair, or the second half after a
first. -/
def Scan.unitRead (seen : List Char) (high : Option Nat) (value : Nat) : Except Reason Scan :=
  let isHigh := 0xd800 ≤ value && value ≤ 0xdbff
  let isLow := 0xdc00 ≤ value && value ≤ 0xdfff
  match high with
  | none =>
    if isHigh then .ok (.pair seen value)
    else if isLow then .error .unexpected
    else .ok (.string (Char.ofNat value :: seen))
  | some first =>
    if isLow then
      .ok (.string (Char.ofNat (0x10000 + (first - 0xd800) * 0x400 + (value - 0xdc00)) :: seen))
    else .error .unexpected

/-- One character, in any state: the state behind it, and the tokens that it completes. -/
def Scan.step (state : Scan) (c : Char) : Except Reason (Scan × List Token) :=
  match state with
  | .idle => Scan.start c
  | .number seen =>
    if isNumberChar c then .ok (.number (c :: seen), [])
    else do
      let ended ← Scan.finish (.number seen)
      let (next, tokens) ← Scan.start c
      return (next, ended ++ tokens)
  | .word seen =>
    if c.isAlpha then .ok (.word (c :: seen), [])
    else do
      let ended ← Scan.finish (.word seen)
      let (next, tokens) ← Scan.start c
      return (next, ended ++ tokens)
  | .string seen =>
    if c = '"' then .ok (.idle, [.text (String.ofList seen.reverse)])
    else if c = '\\' then .ok (.escape seen, [])
    else if c.toNat < 0x20 then .error .unexpected
    else .ok (.string (c :: seen), [])
  | .escape seen =>
    if c = 'u' then .ok (.unit seen none 0 0, [])
    else do
      let some e := shortEscape? c | throw .unexpected
      return (.string (e :: seen), [])
  | .unit seen high count value => do
    let some digit := Text.Hex.digitValue? c.toNat | throw .unexpected
    let value := value * 16 + digit
    if count = 3 then return (← Scan.unitRead seen high value, [])
    else return (.unit seen high (count + 1) value, [])
  | .pair seen high =>
    if c = '\\' then .ok (.pairEscape seen high, []) else .error .unexpected
  | .pairEscape seen high =>
    if c = 'u' then .ok (.unit seen (some high) 0 0, []) else .error .unexpected

end Circuitry.Json
