import Circuitry.Json.Token

/-!
# Reading JSON

The tokens of a text are folded over a stack of open arrays and objects. The members of an object
are kept in the order of their keys, and a repeated key keeps the last value. A limit on the
number of brackets that are open at once guards against deep nesting. A text that is refused is
refused at one of its characters, with a reason.
-/

namespace Circuitry.Json

/-- An array or object that is still open. -/
inductive Frame where
  /-- An array with the items read so far, in reverse. -/
  | array (items : List Json)
  /-- An object with the members read so far. -/
  | object (members : List (String × Json))
  /-- An object that waits for the value of `key`. -/
  | member (members : List (String × Json)) (key : String)

inductive Expected where
  | value
  /-- The first item of an array, or its end. -/
  | itemOrEnd
  /-- The first key of an object, or its end. -/
  | keyOrEnd
  | key
  | colon
  /-- A comma, or the end of the innermost bracket. -/
  | separator
  /-- Nothing: the document is complete. -/
  | nothing (document : Json)

/-- A document that is read up to some token. -/
structure Reading where
  stack : List Frame
  expected : Expected

def Reading.attach (value : Json) : List Frame → Except Reason Reading
  | [] => .ok ⟨[], .nothing value⟩
  | .array items :: stack => .ok ⟨.array (value :: items) :: stack, .separator⟩
  | .member members key :: stack =>
    .ok ⟨.object (Keyed.insert key value members) :: stack, .separator⟩
  | .object _ :: _ => .error .unexpected

/-- Opens a bracket, if the limit allows one more. -/
def Reading.openFrame (limit : Option Nat) (stack : List Frame) (frame : Frame)
    (expected : Expected) : Except Reason Reading :=
  if limit.any (stack.length ≥ ·) then .error .tooDeep else .ok ⟨frame :: stack, expected⟩

def Reading.value (limit : Option Nat) (stack : List Frame) : Token → Except Reason Reading
  | .openArray => openFrame limit stack (.array []) .itemOrEnd
  | .openObject => openFrame limit stack (.object []) .keyOrEnd
  | .text s => attach (.string s) stack
  | .scalar value => attach value stack
  | _ => .error .unexpected

def Reading.step (limit : Option Nat) (state : Reading) (token : Token) : Except Reason Reading :=
  match state.expected, state.stack, token with
  | .value, stack, token => value limit stack token
  | .itemOrEnd, .array _ :: stack, .closeArray => attach (.array []) stack
  | .itemOrEnd, stack, token => value limit stack token
  | .keyOrEnd, .object members :: stack, .closeObject => attach (.object members) stack
  | .keyOrEnd, .object members :: stack, .text key => .ok ⟨.member members key :: stack, .colon⟩
  | .key, .object members :: stack, .text key => .ok ⟨.member members key :: stack, .colon⟩
  | .colon, stack, .colon => .ok ⟨stack, .value⟩
  | .separator, .array items :: stack, .comma => .ok ⟨.array items :: stack, .value⟩
  | .separator, .array items :: stack, .closeArray => attach (.array items.reverse) stack
  | .separator, .object members :: stack, .comma => .ok ⟨.object members :: stack, .key⟩
  | .separator, .object members :: stack, .closeObject => attach (.object members) stack
  | _, _, _ => .error .unexpected

def Reading.run (limit : Option Nat) (state : Reading) (tokens : List Token) :
    Except Reason Reading :=
  tokens.foldlM (Reading.step limit) state

def Reading.document (state : Reading) : Except Reason Json :=
  match state.expected with
  | .nothing document => .ok document
  | _ => .error .unfinished

/-! ### Texts -/

/-- A text that is read up to some character. -/
structure Cursor where
  scan : Scan
  reading : Reading
  position : Position

/-- Reads one character and the tokens that it completes. -/
def Cursor.step (limit : Option Nat) (cursor : Cursor) (c : Char) : Except Reason Cursor := do
  let (scan, tokens) ← cursor.scan.step c
  let reading ← cursor.reading.run limit tokens
  return ⟨scan, reading, cursor.position.after c⟩

def Cursor.finish (limit : Option Nat) (cursor : Cursor) : Except Reason Json := do
  let tokens ← cursor.scan.finish
  let reading ← cursor.reading.run limit tokens
  reading.document

def Cursor.run (limit : Option Nat) (cursor : Cursor) : List Char → Except Fault Json
  | [] => (cursor.finish limit).mapError (⟨·, cursor.position⟩)
  | c :: rest =>
    match cursor.step limit c with
    | .ok next => next.run limit rest
    | .error reason => .error ⟨reason, cursor.position⟩

/-- Reads a text as one value, with at most `limit` brackets open at once. -/
def readWithin (limit : Option Nat) (text : String) : Except Fault Json :=
  Cursor.run limit ⟨.idle, ⟨[], .value⟩, ⟨1, 1⟩⟩ text.toList

/-- The number of brackets that a document may have open at once. -/
def maxDepth : Nat := 127

abbrev TextReader := String → Except Fault Json

def read : TextReader :=
  readWithin (some maxDepth)

end Circuitry.Json
