import Circuitry.Source.Expr
import Circuitry.Source.Names
import Circuitry.Source.Types

/-!
# Commands as statements

Every operator has one form of expression, and operands nest up to a limit; the operation of a
command is at depth one. A literal goes through all links of its chain but the last, which only
picks the constructor. The result of a command can be referred to by the commands after it.
-/

namespace Circuitry

namespace Literal

def construct (token : SourceType) (literal : Literal) : Except CompileError Expr :=
  let payload : Expr := .atom literal.render
  let mismatch : Except CompileError Expr := .error (.invalidLiteral (.wrongType literal token))
  match token with
  | .field => .ok (.call "Field" [payload])
  | .uint64 => .ok (.call "UInt64.from" [.call "Field" [payload]])
  | .bool =>
    match literal with
    | .boolean b => .ok (.call "Bool" [.atom (boolWord b)])
    | .text word =>
      if word = "true" ∨ word = "false" then .ok (.call "Bool" [.atom word]) else mismatch
    | _ => mismatch
  | .signature =>
    match literal with
    | .text _ => .ok (.call "Signature.fromBase58" [payload])
    | _ => mismatch
  | .publicKey =>
    match literal with
    | .text _ => .ok (.call "PublicKey.fromBase58" [payload])
    | _ => mismatch
  | .circuitString =>
    .ok (.call "CircuitString.fromString" [.atom (Literal.text literal.content).render])

/-- The literal that a static variable carries into the source. -/
def ofStatic (converter : Converter) (value : Scalar) (chain : Chain) :
    Except CompileError Literal :=
  if chain.init.isEmpty then .ok (ofScalar value)
  else do
    let converted ← (converter value.toJson chain.init).mapError
      (.conversionFailed (.literal value))
    match ofValue? converted with
    | some literal => return literal
    | none => throw (.invalidLiteral .fieldList)

def staticExpr (converter : Converter) (value : Scalar) (chain : Chain) :
    Except CompileError Expr := do
  let token ← SourceType.parse chain.finalType
  let literal ← ofStatic converter value chain
  construct token literal

end Literal

def Link.transformExpr (link : Link) (operand : Expr) : Except CompileError Expr :=
  let source := link.sourceType
  let target := link.targetType
  if target = "fields" ∧ source ∈ ["uint64", "signature", "publickey", "string"] then
    .ok (.method operand "toFields" [])
  else if source = "field" ∧ target = "uint64" then .ok (.call "UInt64.from" [operand])
  else if source = "bool" ∧ target = "field" then .ok (.method operand "toField" [])
  else .error (.unsupportedTransform link)

structure Scope where
  converter : Converter
  /-- The greatest depth of an operation. -/
  maxDepth : Nat
  names : Names

mutual

def Operation.expr (scope : Scope) (depth : Nat) (operation : Operation) :
    Except CompileError Expr := do
  if depth > scope.maxDepth then throw (.tooDeep scope.maxDepth)
  match operation with
  | .binary operator left right =>
    let receiver ← left.expr scope depth (.binary operator)
    let argument ← right.expr scope depth (.binary operator)
    return .method receiver operator.method [argument]
  | .assert value => return .method (← value.expr scope depth .assert) "assertTrue" []
  | .ternary condition whenTrue whenFalse =>
    let condition ← condition.expr scope depth .ternary
    let whenTrue ← whenTrue.expr scope depth .ternary
    let whenFalse ← whenFalse.expr scope depth .ternary
    return .call "Provable.if" [condition, whenTrue, whenFalse]
  | .transform value link => link.transformExpr (← value.expr scope depth .transform)
  | .verifySign _ signature message publicKey =>
    let signature ← signature.expr scope depth .verifySign
    let publicKey ← publicKey.expr scope depth .verifySign
    let message ← message.expr scope depth .verifySign
    return .method signature "verify" [publicKey, .array [message]]
  | .hash _ inputs => return .call "Poseidon.hash" [.array (← exprsOf scope depth .hash inputs)]
  | .spread value => return .spread (← value.expr scope depth .spread)
  | .not value => return .method (← value.expr scope depth .not) "not" []

/-- The expression of an operand of the given operator, whose operation is at the given depth. -/
def Variable.expr (scope : Scope) (depth : Nat) (operator : Operator) (operand : Variable) :
    Except CompileError Expr :=
  match operand with
  | .static value chain => Literal.staticExpr scope.converter value chain
  | .constant name => (Constant.parse name).map fun constant => .atom constant.expression
  | .reference path =>
    if scope.names.contains path then .ok (.reference path)
    else .error (.undeclaredReference path.display)
  | .setup _ => .error (.invalidOperand operator .setupInCommand)
  | .function operation none => operation.expr scope (depth + 1)
  | .function operation (some out) =>
    .error (.invalidOperand operator (.nestedOutput operation.operator out))

def exprsOf (scope : Scope) (depth : Nat) (operator : Operator) (operands : List Variable) :
    Except CompileError (List Expr) :=
  match operands with
  | [] => .ok []
  | operand :: rest => do
    let first ← operand.expr scope depth operator
    return first :: (← exprsOf scope depth operator rest)

end

/-- The statements of a list of commands. The names afterwards come with the result, also when it
is an error. -/
def statementsOf (converter : Converter) (maxDepth : Nat) :
    List Command → Names → Names × Except CompileError (List Statement)
  | [], names => (names, .ok [])
  | command :: rest, names =>
    match command.operation.expr ⟨converter, maxDepth, names⟩ 1 with
    | .error e => (names, .error e)
    | .ok expr =>
      let declared := match command.out with
        | some out => names.giveOutput out
        | none => (names, .ok ())
      match declared with
      | (names, .error e) => (names, .error e)
      | (names, .ok ()) =>
        let (names, result) := statementsOf converter maxDepth rest names
        (names, result.map (⟨command.out, expr⟩ :: ·))

end Circuitry
