import Circuitry.Source.Command
import Circuitry.Source.Layout
import Circuitry.Source.Template

/-!
# Generated sources

A source is generated in two steps. The program is assembled: its input paths, their names and
types and the statements of its commands. Then the layout of the target is written as a template,
with placeholders for everything that belongs to a path, and the template is rendered with the
names, types and public fields as its data.
-/

namespace Circuitry

/-- Limits and names that a caller may choose. The limits are natural numbers, which stand for the
words that a machine counts in: only limits that fit into a word can be asked for. -/
structure Config where
  /-- The greatest number of hops in a chain of references. -/
  maxReferenceDepth : Nat := 64
  /-- The greatest depth of an operation. -/
  maxExpressionDepth : Nat := 64
  /-- The name of the generated method. -/
  methodName : String := "execute"
  deriving Repr, DecidableEq

structure Outline where
  paths : List Path
  names : Names
  types : InputTypes
  statements : List Statement

def Outline.ofProgram (converter : Converter) (config : Config) (program : Program) :
    Except CompileError Outline := do
  if !Identifier.isValid config.methodName then throw (.invalidMethodName config.methodName)
  let paths := program.schema.inputPaths program.target
  let names ← Names.ofPaths program.target paths
  let types ← InputTypes.ofPaths program.schema config.maxReferenceDepth paths
  let (names, result) :=
    statementsOf converter config.maxExpressionDepth program.commands names
  return ⟨paths, names, types, ← result⟩

namespace Template

/-- A path below a root of the data. -/
def under (root : String) (path : Path) : Path := root :: path

/-- The spelling by placeholders. -/
def spelling : Spelling where
  name := Path.placeholder
  type path := (under typesRoot path).placeholder
  publicField path := (under publicFieldsRoot path).placeholder

def graft (root : String) (data : Tree String) (leaves : List (Path × String)) :
    Except CompileError (Tree String) :=
  (data.putAll (leaves.map fun leaf => (under root leaf.1, leaf.2))).mapError .storing

/-- The data of a template: names at the root, types and public fields below roots of their own. -/
def data (names : Tree String) (types publicFields : List (Path × String)) :
    Except CompileError (Tree String) := do
  let data ← graft typesRoot names types
  graft publicFieldsRoot data publicFields

end Template

/-- The fields of the public inputs on a target; a smart contract has none. -/
def Outline.publicFields (outline : Outline) : Target → Except CompileError (Tree String)
  | .zkProgram => Circuitry.publicFields outline.paths
  | .smartContract => .ok .empty

def Program.source (converter : Converter) (config : Config) (program : Program) :
    Except CompileError String := do
  let outline ← Outline.ofProgram converter config program
  let publicFields ← outline.publicFields program.target
  let types := outline.types.leaves.map fun leaf => (leaf.1, leaf.2.name)
  let data ← Template.data outline.names.tree types publicFields.leaves
  let template := Layout.source program.target Template.spelling config.methodName outline.paths
    outline.statements
  Template.render template data

end Circuitry
