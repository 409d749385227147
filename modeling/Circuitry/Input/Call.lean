import Circuitry.Input.Values
import Circuitry.Program.Identifier

/-!
# Program inputs

The values with which a generated program is called: the private values in the order of their
paths and, for programs with a public input, the public values by their fields. A smart contract
takes no public input, and its public variables are left out.
-/

namespace Circuitry

/-- The values with which a program is called. -/
structure CallInput where
  privateInput : List Value
  /-- The public values in the order of their fields; a smart contract has none. -/
  publicInput : Option (List (String × Value))
  deriving Repr, DecidableEq

namespace CallInput

def size (input : CallInput) : Nat :=
  input.privateInput.length + (input.publicInput.map List.length).getD 0

def isEmpty (input : CallInput) : Bool :=
  input.size == 0

def toJson (input : CallInput) : Json :=
  .object [
    ("privateInput", .array (input.privateInput.map Value.toJson)),
    ("publicInput", match input.publicInput with
      | none => .null
      | some entries => .object (entries.map fun entry => (entry.1, entry.2.toJson)))]

structure Parts where
  /-- The private values, in reverse. -/
  privateValues : List Value
  publicValues : List (String × Value)
  /-- The paths of the public values so far. -/
  owners : NameOwners

def Parts.add (values : InputValues) (target : Target) (parts : Parts) (path : Path) :
    Except CompileError Parts := do
  let some value := values.getLeaf? path | throw (.noValue path)
  if !path.isPublic then
    return { parts with privateValues := value :: parts.privateValues }
  match target with
  | .smartContract => return parts
  | .zkProgram =>
    let field := path.publicField
    let owners ← (parts.owners.assign field path).mapError fun owner =>
      .nameCollision field owner path
    return { parts with publicValues := Keyed.insert field value parts.publicValues, owners }

/-- The input of a target, with the given value for every leaf of the schema. -/
def ofValues (schema : Schema) (values : InputValues) (target : Target) :
    Except CompileError CallInput := do
  let parts ← schema.leafPaths.foldlM (Parts.add values target) ⟨[], [], .empty⟩
  return {
    privateInput := parts.privateValues.reverse
    publicInput := match target with
      | .zkProgram => some parts.publicValues
      | .smartContract => none }

end CallInput

end Circuitry
