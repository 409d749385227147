import Circuitry.Program.Error
import Circuitry.Program.Identifier

/-!
# Reading variables and commands

Variables are objects with a string under `type`. A command is an object with one operator as its
only key; the body of the operator has its inputs under `in` and may name its result under `out`.
A function variable is a command with a type.

The recursion runs along the document: every member of an object is paired with what the inputs
in its body read as, and the rules of each kind of variable and of each operator are applied to
these readings. Of several faults the first that the rules meet is reported.
-/

namespace Circuitry

/-- Whether a JSON value is written as a variable: an object with a string under `type`. -/
def Json.isVariable (json : Json) : Bool :=
  ((json.get? "type").bind Json.string?).isSome

/-- An input with what it reads as. -/
structure Reading where
  item : Json
  result : Except CompileError Variable

/-- The body of an operator with the readings of its inputs, if it has inputs. -/
structure Body where
  json : Json
  inputs : Option (List Reading)

/-! ### Operations -/

namespace Operation

def operand (operator : Operator) (index : Nat) (input : Reading) :
    Except CompileError Variable :=
  if input.item.isVariable then input.result
  else .error (.invalidOperand operator (.notVariable index input.item))

def tag (operator : Operator) (index : Nat) (input : Reading) : Except CompileError String :=
  match input.item with
  | .string s => .ok s
  | _ => .error (.invalidOperand operator (.notString index))

def ofInputs (operator : Operator) (inputs : List Reading) : Except CompileError Operation := do
  match operator, inputs with
  | .binary op, [left, right] =>
    let left ← operand operator 0 left
    let right ← operand operator 1 right
    return .binary op left right
  | .assert, [value] => return .assert (← operand operator 0 value)
  | .not, [value] => return .not (← operand operator 0 value)
  | .spread, [value] => return .spread (← operand operator 0 value)
  | .ternary, [condition, whenTrue, whenFalse] =>
    let condition ← operand operator 0 condition
    let whenTrue ← operand operator 1 whenTrue
    let whenFalse ← operand operator 2 whenFalse
    return .ternary condition whenTrue whenFalse
  | .transform, [value, link] =>
    let link ← (Link.parse (← tag operator 1 link)).mapError .conversion
    return .transform (← operand operator 0 value) link
  | .verifySign, [algorithm, signature, message, publicKey] =>
    let algorithm ← tag operator 0 algorithm
    let signature ← operand operator 1 signature
    let message ← operand operator 2 message
    let publicKey ← operand operator 3 publicKey
    return .verifySign algorithm signature message publicKey
  | .hash, algorithm :: rest =>
    let operands ← (rest.zipIdx 1).mapM fun (input, index) => operand operator index input
    return .hash (← tag operator 0 algorithm) operands
  | _, _ => throw (.wrongArity operator inputs.length)

end Operation

namespace Command

def outputName (operator : Operator) : Option Json → Except CompileError (Option String)
  | none | some .null => .ok none
  | some (.string name) =>
    if !operator.bindsOutput then .error (.invalidOperand operator .bindsNoOutput)
    else if !Identifier.isValid name then
      .error (.invalidOperand operator (.outNotIdentifier name))
    else .ok (some name)
  | some other => .error (.invalidOperand operator (.outNotString other))

def operatorOf (key : String) : Except CompileError Operator :=
  match Operator.ofKey? key with
  | some operator => .ok operator
  | none => .error (.unknownOperator key)

def ofBody (operator : Operator) (body : Body) : Except CompileError Command := do
  let .object members := body.json | throw (.invalidOperand operator .bodyNotObject)
  let some inputs := body.inputs | throw (.invalidOperand operator .inputsNotArray)
  let operation ← Operation.ofInputs operator inputs
  let out ← outputName operator (members.lookup "out")
  return ⟨operation, out⟩

/-- The command of the members of an object: all keys are operators, and there is just one. -/
def ofBodies (bodies : List (String × Body)) : Except CompileError Command := do
  let operators ← bodies.mapM fun entry => operatorOf entry.1
  match operators, bodies with
  | [operator], [(_, body)] => ofBody operator body
  | [], _ => throw (.parse .noOperator)
  | _, _ => throw (.parse (.severalOperators (bodies.map Prod.fst)))

end Command

/-! ### Variables -/

namespace Variable

def linkOf (item : Json) : Except CompileError Link :=
  match item with
  | .string s => (Link.parse s).mapError .conversion
  | other => .error (.parse (.linkNotString other))

def chainOf (members : List (String × Json)) : Except CompileError Chain := do
  let some (.array items) := members.lookup "transLinks" | throw (.parse .linksNotArray)
  let links ← items.mapM linkOf
  let some chain := Chain.ofLinks? links | throw (.parse .noLinks)
  return chain

def segmentOf (item : Json) : Except CompileError String :=
  match item with
  | .string s => .ok s
  | other => .error (.parse (.segmentNotString other))

def referencePath (members : List (String × Json)) : Except CompileError Path := do
  let some (.array items) := members.lookup "path" | throw (.parse .pathNotArray)
  if items.isEmpty then throw (.parse .emptyReference)
  items.mapM segmentOf

def staticOf (members : List (String × Json)) : Except CompileError Variable := do
  let some json := members.lookup "value" | throw (.parse .noStaticValue)
  let some value := Scalar.ofJson? json | throw (.parse (.staticNotScalar json))
  return .static value (← chainOf members)

/-- Reads the members of a variable, given the bodies that its members would be for a command. -/
def ofMembers (members : List (String × Json)) (bodies : List (String × Body)) :
    Except CompileError Variable := do
  let some (.string kind) := members.lookup "type"
    | throw (.parse (.noType (.object members)))
  match kind with
  | "static" => staticOf members
  | "setup" => return .setup (← chainOf members)
  | "constant" =>
    let some (.string name) := members.lookup "name" | throw (.parse .constantNotNamed)
    return .constant name
  | "reference" => return .reference (← referencePath members)
  | "function" =>
    let command ← Command.ofBodies (bodies.filter fun entry => entry.1 != "type")
    return .function command.operation command.out
  | other => throw (.parse (.unknownKind other))

end Variable

mutual

def Variable.ofJson : Json → Except CompileError Variable
  | .object members => Variable.ofMembers members (bodiesOf members)
  | other => .error (.parse (.notVariable other))

def bodiesOf : List (String × Json) → List (String × Body)
  | [] => []
  | (key, json) :: rest => (key, ⟨json, inputsOf json⟩) :: bodiesOf rest

def inputsOf : Json → Option (List Reading)
  | .object members => inputsAmong members
  | _ => none

def inputsAmong : List (String × Json) → Option (List Reading)
  | [] => none
  | (key, json) :: rest => if key = "in" then itemsOf json else inputsAmong rest

def itemsOf : Json → Option (List Reading)
  | .array items => some (readingsOf items)
  | _ => none

def readingsOf : List Json → List Reading
  | [] => []
  | item :: rest => ⟨item, Variable.ofJson item⟩ :: readingsOf rest

end

/-- Reads the command with the given position in the list of commands. -/
def Command.ofJson (json : Json) (index : Nat) : Except CompileError Command :=
  match json with
  | .object members => Command.ofBodies (bodiesOf members)
  | _ => .error (.parse (.commandNotObject index))

end Circuitry
