import Circuitry.Json.Reader
import Circuitry.Source.Literal

/-!
# Why a program is refused

Every failure of reading a program, resolving its inputs or generating its source is a cause with
its data. The wording and the category of each cause are fixed here and nowhere else.
-/

namespace Circuitry

inductive ParseFault where
  | setupNotObject
  | programNotObject
  | targetNotString
  | noSchema
  | commandsNotArray
  | optionsNotObject
  | schemaNotObject
  | unsupportedRegion (key : String)
  | noPrivateRegion
  | regionNotObject (key : String)
  | functionInSchema (path : Path)
  | notVariableOrObject (path : Path) (found : Json)
  | badKey (key : String) (path : Path)
  | commandNotObject (index : Nat)
  | notVariable (found : Json)
  | noType (found : Json)
  | noStaticValue
  | staticNotScalar (found : Json)
  | constantNotNamed
  | unknownKind (kind : String)
  | linksNotArray
  | linkNotString (found : Json)
  | noLinks
  | pathNotArray
  | emptyReference
  | segmentNotString (found : Json)
  | noOperator
  | severalOperators (keys : List String)
  /-- A fault of the variable at a path of the schema. -/
  | located (path : Path) (fault : ParseFault)

def ParseFault.message : ParseFault → String
  | .setupNotObject => "Setup payload must be an object"
  | .programNotObject => "Program must be an object"
  | .targetNotString => "Program target must be a string"
  | .noSchema => "Program has no inputSchema"
  | .commandsNotArray => "Program commands must be an array"
  | .optionsNotObject => "Program options must be an object"
  | .schemaNotObject => "Input schema must be an object"
  | .unsupportedRegion key =>
    s!"Input schema region \"{key}\" is not supported, " ++
      s!"expected \"{Path.privateRegion}\" or \"{Path.publicRegion}\""
  | .noPrivateRegion => "Input schema has no private region"
  | .regionNotObject key => s!"Input schema region \"{key}\" must be an object"
  | .functionInSchema path =>
    s!"Function variable at {path.display} is only allowed inside commands"
  | .notVariableOrObject path found =>
    s!"Expected variable or object at {path.display}, got {found.compact}"
  | .badKey key path =>
    s!"Input schema key \"{key}\" under {path.display} must be non-empty " ++
      "without dots, braces or whitespace"
  | .commandNotObject index => s!"Command #{index} must be an object"
  | .notVariable found => s!"Expected variable, got {found.compact}"
  | .noType found => s!"Variable has no type: {found.compact}"
  | .noStaticValue => "Static variable has no value"
  | .staticNotScalar found =>
    s!"Static variable value must be a string, number or boolean, got {found.compact}"
  | .constantNotNamed => "Constant variable name must be a string"
  | .unknownKind kind => s!"Unknown variable type \"{kind}\""
  | .linksNotArray => "Variable transLinks must be an array"
  | .linkNotString found => s!"Transformation link must be a string, got {found.compact}"
  | .noLinks => "Transformation links must not be empty"
  | .pathNotArray => "Reference path must be an array"
  | .emptyReference => "Reference path must not be empty"
  | .segmentNotString found => s!"Reference path segment must be a string, got {found.compact}"
  | .noOperator => "Command declares no operator"
  | .severalOperators keys => "Command declares several operators: " ++ ", ".intercalate keys
  | .located path fault => s!"{fault.message} (at {path.display})"

inductive OperandFault where
  | bodyNotObject
  | inputsNotArray
  | notVariable (index : Nat) (found : Json)
  | notString (index : Nat)
  | bindsNoOutput
  | outNotIdentifier (name : String)
  | outNotString (found : Json)
  | setupInCommand
  | nestedOutput (operator : Operator) (out : String)

def OperandFault.message : OperandFault → String
  | .bodyNotObject => "operator body must be an object"
  | .inputsNotArray => "\"in\" must be an array"
  | .notVariable index found => s!"operand #{index} is not a variable: {found.compact}"
  | .notString index => s!"operand #{index} must be a string"
  | .bindsNoOutput => "operator does not bind an output name"
  | .outNotIdentifier name => s!"output name \"{name}\" is not a valid identifier"
  | .outNotString found => s!"output name must be a string, got {found.compact}"
  | .setupInCommand => "setup variables have no value inside commands"
  | .nestedOutput operator out => s!"nested {operator.key} cannot bind output \"{out}\""

inductive LiteralFault where
  | fieldList
  | wrongType (literal : Literal) (token : SourceType)

def LiteralFault.message : LiteralFault → String
  | .fieldList => "field arrays have no literal form"
  | .wrongType literal token => s!"cannot render {literal.render} as {token.name}"

inductive Subject where
  | leaf (path : Path)
  | literal (value : Scalar)

def Subject.name : Subject → String
  | .leaf path => path.display
  | .literal value => s!"static value {value.toJson.compact}"

inductive CompileError where
  | parse (fault : ParseFault)
  /-- The text of a document is not JSON. -/
  | malformed (fault : Json.Fault)
  | unsupportedTarget (id : String)
  | conversionFailed (subject : Subject) (cause : ConversionError)
  | missingSetup (path : Path)
  | unknownConstant (name : String)
  | unresolvedReference (path target : Path)
  | referenceTooLong (path : Path) (limit : Nat)
  | unsupportedType (name : String) (path : Option Path)
  | unknownOperator (key : String)
  | wrongArity (operator : Operator) (found : Nat)
  | invalidOperand (operator : Operator) (fault : OperandFault)
  | invalidLiteral (fault : LiteralFault)
  | unsupportedTransform (link : Link)
  | undeclaredReference (key : String)
  | tooDeep (limit : Nat)
  | duplicateOutput (name : String)
  | nameCollision (name : String) (first second : Path)
  /-- A link of a document is malformed. -/
  | conversion (cause : ConversionError)
  | storing (cause : StoreError)
  | invalidMethodName (name : String)
  /-- A leaf of the schema has no value. -/
  | noValue (path : Path)
  /-- A variable of this kind ends no chain of conversions. -/
  | noChain (kind : String)

/-- Where the cause of a failure is to be looked for. -/
inductive Category where
  | input
  | schema
  | operation
  | entry
  | config
  | internal
  deriving Repr, DecidableEq

namespace CompileError

def message : CompileError → String
  | .parse fault => s!"Parse error: {fault.message}"
  | .malformed fault => s!"Invalid JSON: {fault.message}"
  | .unsupportedTarget id => s!"Target program {id} is not supported"
  | .conversionFailed subject cause =>
    s!"Transformation of {subject.name} failed: {cause.message}"
  | .missingSetup path => s!"Missing setup value for {path.display}"
  | .unknownConstant name => s!"Constant variable with name \"{name}\" is not provided"
  | .unresolvedReference path target =>
    s!"Reference at {path.display} points to {target.display}, which is not a resolvable variable"
  | .referenceTooLong path limit =>
    s!"Reference chain starting at {path.display} exceeds the maximum depth of {limit}"
  | .unsupportedType name none => s!"Unsupported type for o1js: {name}"
  | .unsupportedType name (some path) => s!"Unsupported type for o1js: {name} (at {path.display})"
  | .unknownOperator key => s!"Unrecognized operator: {key}"
  | .wrongArity operator found =>
    s!"Operator {operator.key} expects {operator.arity} operand(s), got {found}"
  | .invalidOperand operator fault => s!"Invalid operand for {operator.key}: {fault.message}"
  | .invalidLiteral fault => s!"Invalid operand for static: {fault.message}"
  | .unsupportedTransform link =>
    s!"Transformation link {link.display} is not supported by the transform function"
  | .undeclaredReference key => s!"Reference to undeclared path {key}"
  | .tooDeep limit => s!"Expression nesting exceeds the maximum depth of {limit}"
  | .duplicateOutput name => s!"Output name {name} is already declared"
  | .nameCollision name first second =>
    s!"Paths {first.display} and {second.display} both map to identifier {name}"
  | .conversion cause => cause.message
  | .storing cause => cause.message
  | .invalidMethodName name =>
    s!"Invalid compiler configuration: Method name \"{name}\" is not a valid identifier"
  | .noValue path => s!"Internal error: No resolved value for {path.display}"
  | .noChain kind => s!"Internal error: {kind} variable has no conversion chain"

def category : CompileError → Category
  | .parse _ | .malformed _ => .input
  | .unsupportedTarget _ => .entry
  | .conversionFailed _ _ | .missingSetup _ | .unknownConstant _ | .unresolvedReference _ _
  | .referenceTooLong _ _ | .unsupportedType _ _ | .nameCollision _ _ _ | .conversion _
  | .storing _ => .schema
  | .unknownOperator _ | .wrongArity _ _ | .invalidOperand _ _ | .invalidLiteral _
  | .unsupportedTransform _ | .undeclaredReference _ | .tooDeep _ | .duplicateOutput _ =>
    .operation
  | .invalidMethodName _ => .config
  | .noValue _ | .noChain _ => .internal

/-- The same failure, located at a path of the schema if it is a fault of the document. -/
def located (path : Path) : CompileError → CompileError
  | .parse fault => .parse (.located path fault)
  | other => other

end CompileError

def Target.parse (id : String) : Except CompileError Target :=
  match Target.ofId? id with
  | some target => .ok target
  | none => .error (.unsupportedTarget id)

end Circuitry
