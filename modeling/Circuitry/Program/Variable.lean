import Circuitry.Conversion.Link
import Circuitry.Program.Target
import Circuitry.Tree.Json

/-!
# Programs

A program is an input schema, which is a tree of variables, and a list of commands over them. A
variable is a literal, a value that the setup provides, a named constant, a reference to another
variable, or the result of an operation; operations nest through their operands.
-/

namespace Circuitry

/-- A raw value that a program may hold. -/
inductive Scalar where
  | number (value : Number)
  | text (value : String)
  | boolean (value : Bool)
  deriving Repr, DecidableEq

def Scalar.toJson : Scalar → Json
  | .number n => .number n
  | .text s => .string s
  | .boolean b => .bool b

def Scalar.ofJson? : Json → Option Scalar
  | .number n => some (.number n)
  | .string s => some (.text s)
  | .bool b => some (.boolean b)
  | _ => none

/-- The operators with a left and a right operand. -/
inductive BinaryOperator where
  | add
  | sub
  | mul
  | equal
  | greater
  | greaterEqual
  | less
  | lessEqual
  deriving Repr, DecidableEq

namespace BinaryOperator

def key : BinaryOperator → String
  | .add => "add"
  | .sub => "sub"
  | .mul => "mul"
  | .equal => "equal"
  | .greater => "greater"
  | .greaterEqual => "greaterEqual"
  | .less => "less"
  | .lessEqual => "lessEqual"

def method : BinaryOperator → String
  | .add => "add"
  | .sub => "sub"
  | .mul => "mul"
  | .equal => "equals"
  | .greater => "greaterThan"
  | .greaterEqual => "greaterThanOrEqual"
  | .less => "lessThan"
  | .lessEqual => "lessThanOrEqual"

end BinaryOperator

inductive Operator where
  | binary (operator : BinaryOperator)
  | assert
  | ternary
  | transform
  | verifySign
  | hash
  | spread
  | not
  deriving Repr, DecidableEq

namespace Operator

def key : Operator → String
  | .binary operator => operator.key
  | .assert => "assert"
  | .ternary => "ternary"
  | .transform => "transform"
  | .verifySign => "verifySign"
  | .hash => "hash"
  | .spread => "spread"
  | .not => "not"

def all : List Operator :=
  [.binary .add, .binary .sub, .binary .mul, .binary .equal, .binary .greater,
    .binary .greaterEqual, .binary .less, .binary .lessEqual, .assert, .ternary, .transform,
    .verifySign, .hash, .spread, .not]

def ofKey? (key : String) : Option Operator :=
  all.find? fun operator => operator.key == key

/-- Whether the result of an operator may be given a name. -/
def bindsOutput : Operator → Bool
  | .assert | .spread => false
  | _ => true

/-- The number of inputs of an operator, as messages name it. -/
def arity : Operator → String
  | .binary _ | .transform => "2"
  | .assert | .spread | .not => "1"
  | .ternary => "3"
  | .verifySign => "4"
  | .hash => "at least 1"

end Operator

mutual

inductive Operation where
  | binary (operator : BinaryOperator) (left right : Variable)
  | assert (value : Variable)
  | ternary (condition whenTrue whenFalse : Variable)
  | transform (value : Variable) (link : Link)
  | verifySign (algorithm : String) (signature message publicKey : Variable)
  | hash (algorithm : String) (inputs : List Variable)
  | spread (value : Variable)
  | not (value : Variable)

/-- A variable of a schema or an operand of a command. -/
inductive Variable where
  /-- A literal that goes through a chain of conversions. -/
  | static (value : Scalar) (chain : Chain)
  /-- A value of the setup that goes through a chain of conversions. -/
  | setup (chain : Chain)
  | constant (name : String)
  | reference (path : Path)
  | function (operation : Operation) (out : Option String)

end

namespace Operation

def operator : Operation → Operator
  | .binary operator _ _ => .binary operator
  | .assert _ => .assert
  | .ternary _ _ _ => .ternary
  | .transform _ _ => .transform
  | .verifySign _ _ _ _ => .verifySign
  | .hash _ _ => .hash
  | .spread _ => .spread
  | .not _ => .not

def operands : Operation → List Variable
  | .binary _ left right => [left, right]
  | .assert value => [value]
  | .ternary condition whenTrue whenFalse => [condition, whenTrue, whenFalse]
  | .transform value _ => [value]
  | .verifySign _ signature message publicKey => [signature, message, publicKey]
  | .hash _ inputs => inputs
  | .spread value => [value]
  | .not value => [value]

end Operation

namespace Variable

def kind : Variable → String
  | .static _ _ => "static"
  | .setup _ => "setup"
  | .constant _ => "constant"
  | .reference _ => "reference"
  | .function _ _ => "function"

/-- Whether a variable has a value of its own, without looking at other variables. -/
def hasOwnValue : Variable → Bool
  | .static _ _ | .setup _ | .constant _ => true
  | .reference _ | .function _ _ => false

def isReference : Variable → Bool
  | .reference _ => true
  | _ => false

def display : Variable → String
  | .static value chain => s!"static({value.toJson.compact}, {chain.last.display})"
  | .setup chain => s!"setup({chain.last.display})"
  | .constant name => s!"constant({name})"
  | .reference path => s!"reference({path.display})"
  | .function operation _ => s!"function({operation.operator.key})"

end Variable

/-- An operation whose result may be given a name. -/
structure Command where
  operation : Operation
  out : Option String

abbrev Schema := Tree Variable

structure Program where
  target : Target
  schema : Schema
  commands : List Command
  options : List (String × Json)

end Circuitry
