import Circuitry.Input.Values
import Circuitry.Program.Identifier

/-!
# Types of a generated source

The paths of a schema that become inputs of a source, the type of each of them, and the fields
of the public ones.
-/

namespace Circuitry

/-- The paths of a schema that become inputs on a target. -/
def Schema.inputPaths (schema : Schema) (target : Target) : List Path :=
  schema.leafPaths.filter fun path => target == .zkProgram || !path.isPublic

/-- The conversion chain in which a variable with a value of its own ends. -/
def Variable.chain : Variable → Except CompileError Chain
  | .static _ chain | .setup chain => .ok chain
  | .constant name => (Constant.parse name).map Constant.chain
  | .reference path => .error (.noChain (Variable.reference path).kind)
  | .function operation out => .error (.noChain (Variable.function operation out).kind)

def SourceType.parse (name : String) : Except CompileError SourceType :=
  match SourceType.ofTypeName? name with
  | some token => .ok token
  | none => .error (.unsupportedType name none)

abbrev InputTypes := Tree SourceType

namespace InputTypes

/-- The type of the variable at the end of the references from a path. -/
def typeOf (schema : Schema) (limit : Nat) (path : Path) : Except CompileError SourceType := do
  let (_, found) ← schema.dereference path limit
  let chain ← found.chain
  match SourceType.ofTypeName? chain.finalType with
  | some token => return token
  | none => throw (.unsupportedType chain.finalType (some path))

def add (schema : Schema) (limit : Nat) (types : InputTypes) (path : Path) :
    Except CompileError InputTypes := do
  let token ← typeOf schema limit path
  (types.put path token).mapError .storing

def ofPaths (schema : Schema) (limit : Nat) (paths : List Path) : Except CompileError InputTypes :=
  paths.foldlM (add schema limit) Tree.empty

end InputTypes

def publicFields (paths : List Path) : Except CompileError (Tree String) :=
  let entries := (paths.filter Path.isPublic).map fun (path : Path) => (path, path.publicField)
  (Tree.empty.putAll entries).mapError .storing

end Circuitry
